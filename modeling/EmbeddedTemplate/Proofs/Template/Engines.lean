import EmbeddedTemplate.Proofs.Tree.Mentions
import EmbeddedTemplate.Template.Engine

namespace EmbeddedTemplate.Template

open EmbeddedTemplate.Tree

variable {name : String} {note : Annotation} {args entries : List Tree} {t buffer : Tree}

namespace Engine

/-- An engine that does not put the reserved name anywhere. -/
structure Tidy (engine : Engine) : Prop where
  init : ∀ options, (engine.init options).mentions = []
  text : ∀ {buffer content buffer'}, buffer.mentions = [] →
    engine.text buffer content = .ok buffer' → buffer'.mentions = []
  expression : ∀ {buffer marker tree buffer'}, buffer.mentions = [] → tree.mentions = [] →
    engine.expression buffer marker tree = .ok buffer' → buffer'.mentions = []
  body : ∀ {buffer artifact}, buffer.mentions = [] → engine.body buffer = .ok artifact →
    artifact.mentions = []

theorem tidy_concat : concat.Tidy where
  init _ := rfl
  text hb h := by
    cases h
    simp (disch := decide) [concatenation, mentions_named, hb]
  expression hb ht h := by
    simp only [concat] at h
    split at h
    · cases h
      simp (disch := decide) [concatenation, textOf, moduleName, mentions_named, mentions_remote,
        hb, ht]
    · split at h <;> cases h
      simp (disch := decide) [evaluation, mentions_named, mentions_var, hb, ht]
  body hb h := by
    cases h
    exact hb

theorem tidy_strict : strict.Tidy :=
  { tidy_concat with
    expression := fun hb ht h => by
      simp only [strict] at h
      split at h
      · cases h
      · split at h
        · cases h
        · exact tidy_concat.expression hb ht h }

theorem expandAssigns_of_isLiteral (h : (expandAssigns t).isLiteral) : expandAssigns t = t := by
  unfold expandAssigns at h ⊢
  split at h
  · split at h <;> cases h
  all_goals first | rfl | cases h

theorem expandAllAssigns_eq_map (ts : List Tree) : expandAllAssigns ts = ts.map expandAssigns := by
  induction ts with
  | nil => rfl
  | cons t ts ih => rw [expandAllAssigns, ih, List.map_cons]

theorem mention?_expandAssigns {target : Tree} (h : (call target note args).mention? = none) :
    (call (expandAssigns target) note (expandAllAssigns args)).mention? = none := by
  cases htarget : expandAssigns target with
  | str name =>
    have ht := expandAssigns_of_isLiteral (t := target) (by rw [htarget]; rfl)
    rw [htarget] at ht
    subst ht
    have hn : name ≠ reservedName := by
      rintro rfl
      rw [mention?_reserved] at h
      cases h
    simp only [mention?, if_neg hn]
    split
    · next owner method hargs =>
      rw [expandAllAssigns_eq_map, List.map_eq_cons_iff] at hargs
      obtain ⟨a, _, rfl, -, hargs⟩ := hargs
      obtain ⟨b, rfl, hb⟩ := List.map_eq_singleton_iff.1 hargs
      rw [expandAssigns_of_isLiteral (by rw [hb]; rfl)] at hb
      subst hb
      simpa only [mention?, if_neg hn] using h
    · rfl
  | _ => rfl

theorem mention?_ref_expandAssigns {target : Tree} (h : (ref target note).mention? = none) :
    (ref (expandAssigns target) note).mention? = none := by
  cases htarget : expandAssigns target with
  | str name =>
    have ht := expandAssigns_of_isLiteral (t := target) (by rw [htarget]; rfl)
    rwa [← ht, htarget] at h
  | _ => rfl

mutual

theorem mentions_expandAssigns (t : Tree) (h : t.mentions = []) :
    (expandAssigns t).mentions = [] := by
  unfold expandAssigns
  split
  · split
    · simp (disch := decide) [fetchAssign, moduleName, mentions_named, mentions_remote,
        mentions_var]
    · exact h
  · next target note args _ =>
    rw [mentions_eq] at h ⊢
    obtain ⟨hm, hc⟩ := List.append_eq_nil_iff.1 h
    obtain ⟨ht, ha⟩ := List.append_eq_nil_iff.1 hc
    rw [mention?_expandAssigns (Option.toList_eq_nil_iff.1 hm), children, mentionsAll_cons,
      mentions_expandAssigns target ht, mentionsAll_expandAllAssigns args ha]
    rfl
  · next target note =>
    rw [mentions_eq] at h ⊢
    obtain ⟨hm, hc⟩ := List.append_eq_nil_iff.1 h
    have ht : target.mentions = [] := by simpa [children] using hc
    rw [mention?_ref_expandAssigns (Option.toList_eq_nil_iff.1 hm), children, mentionsAll_cons,
      mentions_expandAssigns target ht]
    rfl
  · next left right =>
    rw [mentions_pair] at h ⊢
    obtain ⟨hl, hr⟩ := List.append_eq_nil_iff.1 h
    rw [mentions_expandAssigns left hl, mentions_expandAssigns right hr, List.append_nil]
  · next items =>
    rw [mentions_list] at h ⊢
    exact mentionsAll_expandAllAssigns items h
  · exact h

theorem mentionsAll_expandAllAssigns (ts : List Tree) (h : mentionsAll ts = []) :
    mentionsAll (expandAllAssigns ts) = [] := by
  cases ts with
  | nil => rfl
  | cons t ts =>
    obtain ⟨ht, hts⟩ := List.append_eq_nil_iff.1 h
    exact List.append_eq_nil_iff.2
      ⟨mentions_expandAssigns t ht, mentionsAll_expandAllAssigns ts hts⟩

end

theorem tidy_smart : smart.Tidy :=
  { tidy_concat with
    expression := fun hb ht h => tidy_concat.expression hb (mentions_expandAssigns _ ht) h }

theorem mentions_record {entry : List Tree} {buffer' : Tree} (hb : buffer.mentions = [])
    (he : mentionsAll entry = []) (h : record buffer entry = .ok buffer') :
    buffer'.mentions = [] := by
  unfold record at h
  split at h <;> cases h
  rw [mentions_sealed] at hb
  simp [hb, he]

theorem tidy_recording : recording.Tidy where
  init _ := rfl
  text hb h := mentions_record hb rfl h
  expression hb ht h := mentions_record hb (by simp [ht]) h
  body hb h := by
    simp only [recording] at h
    split at h <;> cases h <;> exact hb

mutual

theorem mentions_setting (s : Setting) : s.toTree.mentions = [] := by
  cases s with
  | list items => exact mentions_settings items
  | table entries => exact mentions_pairs entries
  | _ => rfl

theorem mentions_settings (ss : List Setting) : mentionsAll (Setting.toTrees ss) = [] := by
  cases ss with
  | nil => rfl
  | cons s ss => rw [Setting.toTrees, mentionsAll_cons, mentions_setting, mentions_settings]; rfl

theorem mentions_pairs (entries : List (String × Setting)) :
    mentionsAll (Setting.toPairs entries) = [] := by
  cases entries with
  | nil => rfl
  | cons entry entries =>
    rw [Setting.toPairs, mentionsAll_cons, mentions_pair, mentions_setting, mentions_pairs]
    rfl

end

theorem tidy_indenting : indenting.Tidy :=
  { tidy_recording with
    init := fun options => by
      simp only [indenting, mentions_sealed, mentionsAll_cons, mentions_setting]
      rfl }

theorem tidy_ofName (name : EngineName) : (ofName name).Tidy := by
  cases name with
  | smart => exact tidy_smart
  | concat => exact tidy_concat
  | recording => exact tidy_recording
  | indenting => exact tidy_indenting
  | strict => exact tidy_strict

end Engine

end EmbeddedTemplate.Template
