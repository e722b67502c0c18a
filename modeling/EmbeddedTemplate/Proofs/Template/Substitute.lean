import EmbeddedTemplate.Proofs.Outcome
import EmbeddedTemplate.Proofs.Tree.Mapping
import EmbeddedTemplate.Proofs.Tree.Mentions
import EmbeddedTemplate.Template.Placeholder
import Mathlib.Data.List.Forall2

namespace EmbeddedTemplate.Template

open EmbeddedTemplate.Tree

section

variable {sections : List Tree} {t t' : Tree} {ts : List Tree} {e : Fault}

theorem noSection_of_lookup {key : Int} (h : lookup sections key = .error e) :
    e = .noSection key := by
  unfold lookup at h
  split at h
  · cases h
  · cases h
    rfl

theorem exists_lookup_iff {key : Int} :
    (∃ s, lookup sections key = .ok s) ↔ 0 ≤ key ∧ key < sections.length := by
  unfold lookup
  by_cases hk : key < 0
  · simp only [hk, if_true, reduceCtorEq, exists_false, false_iff]
    omega
  · rw [if_neg hk]
    cases hs : sections[key.toNat]? with
    | none =>
      have := List.getElem?_eq_none_iff.1 hs
      simp only [reduceCtorEq, exists_false, false_iff]
      omega
    | some t =>
      obtain ⟨hlt, -⟩ := List.getElem?_eq_some_iff.1 hs
      simp only [Except.ok.injEq, exists_eq', true_iff]
      omega

mutual

theorem exists_of_substitute_error (t : Tree) (h : substitute sections t = .error e) :
    ∃ key, .placeholder key ∈ t.mentions ∧ lookup sections key = .error e := by
  have child {u : Tree} (hu : u ∈ t.children)
      (h : ∃ key, .placeholder key ∈ u.mentions ∧ lookup sections key = .error e) :
      ∃ key, .placeholder key ∈ t.mentions ∧ lookup sections key = .error e := by
    obtain ⟨key, hm, hl⟩ := h
    exact ⟨key, mem_mentions_of_mem_children hu hm, hl⟩
  unfold substitute at h
  split at h
  · next name note key =>
    split at h
    · next hn => exact ⟨key, by simp [mentions_eq, hn, mention?_reserved, Mention.ofCall], h⟩
    · cases h
  · next target note args _ =>
    rcases bind_eq_error.1 h with h | ⟨_, _, h⟩
    · exact child (List.mem_cons_self ..) (exists_of_substitute_error target h)
    · rcases bind_eq_error.1 h with h | ⟨_, _, h⟩
      · obtain ⟨u, hu, h⟩ := exists_of_substituteAll_error args h
        exact child (List.mem_cons_of_mem _ hu) h
      · cases h
  · next target note =>
    rcases bind_eq_error.1 h with h | ⟨_, _, h⟩
    · exact child (List.mem_cons_self ..) (exists_of_substitute_error target h)
    · cases h
  · next left right =>
    rcases bind_eq_error.1 h with h | ⟨_, _, h⟩
    · exact child (List.mem_cons_self ..) (exists_of_substitute_error left h)
    · rcases bind_eq_error.1 h with h | ⟨_, _, h⟩
      · exact child (by simp [children]) (exists_of_substitute_error right h)
      · cases h
  · next items =>
    rcases bind_eq_error.1 h with h | ⟨_, _, h⟩
    · obtain ⟨u, hu, h⟩ := exists_of_substituteAll_error items h
      exact child hu h
    · cases h
  · cases h

theorem exists_of_substituteAll_error (ts : List Tree) (h : substituteAll sections ts = .error e) :
    ∃ t ∈ ts, ∃ key, .placeholder key ∈ t.mentions ∧ lookup sections key = .error e := by
  cases ts with
  | nil => cases h
  | cons t ts =>
    rcases bind_eq_error.1 h with h | ⟨_, _, h⟩
    · exact ⟨t, List.mem_cons_self .., exists_of_substitute_error t h⟩
    · rcases bind_eq_error.1 h with h | ⟨_, _, h⟩
      · obtain ⟨u, hu, h⟩ := exists_of_substituteAll_error ts h
        exact ⟨u, List.mem_cons_of_mem _ hu, h⟩
      · cases h

end

theorem noSection_of_substitute (t : Tree) (h : substitute sections t = .error e) :
    ∃ key, e = .noSection key := by
  obtain ⟨key, -, hl⟩ := exists_of_substitute_error t h
  exact ⟨key, noSection_of_lookup hl⟩

end

theorem mention?_eq_placeholder {t : Tree} {key : Int} :
    t.mention? = some (.placeholder key) ↔ placeholderKey? t = some key := by
  unfold placeholderKey?
  split
  · next name note k =>
    by_cases hn : name = reservedName
    · subst hn
      rw [mention?_reserved, if_pos rfl, Mention.ofCall]
      simp
    · rw [if_neg hn]
      simp [mention?, hn]
  · next hne =>
    refine ⟨fun h => ?_, by rintro ⟨⟩⟩
    cases t with
    | call target note args =>
      cases target with
      | str name =>
        by_cases hn : name = reservedName
        · subst hn
          rw [mention?_reserved, Option.some.injEq] at h
          obtain rfl := eq_of_ofCall h
          exact absurd rfl (hne _ _ _)
        · simp only [mention?, if_neg hn] at h
          split at h
          · split at h <;> cases h
          · cases h
      | _ => cases h
    | ref target note =>
      cases target with
      | str name =>
        rw [mention?] at h
        split at h <;> cases h
      | _ => cases h
    | _ => cases h

theorem lookup_of_lt {sections : List Tree} {k : Nat} (h : k < sections.length) :
    lookup sections k = .ok sections[k] := by
  have : ¬ (k : Int) < 0 := by omega
  simp [lookup, this, h]

variable (sections : List Tree)

def held : Mention → List Mention
  | .placeholder key => (lookup sections key).toOption.elim [] Tree.mentions
  | .stray => [.stray]

theorem flatMap_held (sections : List Tree) :
    ((List.range sections.length).map fun k : Nat => Mention.placeholder k).flatMap
      (held sections) = sections.flatMap Tree.mentions := by
  rw [List.flatMap_map, List.flatMap_def, List.flatMap_def]
  congr 1
  refine List.ext_getElem (by simp) fun k hk _ => ?_
  rw [List.length_map, List.length_range] at hk
  simp [held, lookup_of_lt hk, Except.toOption]

def Fillable (t : Tree) : Prop :=
  ∀ m ∈ t.mentions, ∃ key s, m = .placeholder key ∧ lookup sections key = .ok s

/-- In place of each placeholder stands its section. -/
structure Filled (t t' : Tree) : Prop where
  mentions : t'.mentions = t.mentions.flatMap (held sections)
  places : ∀ {path u key}, t.at? path = some u → u.mention? = some (.placeholder key) →
    t'.at? path = (lookup sections key).toOption

variable {sections} {t t' u left right owner : Tree} {ts ts' args : List Tree} {key : Int}
variable {name method : String} {note : Annotation}

theorem Fillable.of_mem_children (h : Fillable sections t) (hu : u ∈ t.children) :
    Fillable sections u := fun m hm => h m (mem_mentions_of_mem_children hu hm)

theorem Fillable.mention? {m : Mention} (h : Fillable sections t) (hm : t.mention? = some m) :
    ∃ key s, m = .placeholder key ∧ lookup sections key = .ok s :=
  h m (by simp [mentions_eq, hm])

namespace Filled

theorem mentionsAll (h : List.Forall₂ (Filled sections) ts ts') :
    Tree.mentionsAll ts' = (Tree.mentionsAll ts).flatMap (held sections) := by
  induction h with
  | nil => rfl
  | cons hf _ ih => rw [mentionsAll_cons, mentionsAll_cons, hf.mentions, ih, List.flatMap_append]

theorem of_children (h : t.mention? = none) (h' : t'.mention? = none)
    (hc : List.Forall₂ (Filled sections) t.children t'.children) : Filled sections t t' where
  mentions := by
    rw [mentions_eq t, mentions_eq t', h, h', Option.toList_none, List.nil_append, List.nil_append]
    exact mentionsAll hc
  places {path u key} hu hk := by
    cases path with
    | nil =>
      cases hu
      rw [h] at hk
      cases hk
    | cons i path =>
      obtain ⟨c, hci, hu⟩ := Option.bind_eq_some_iff.1 hu
      obtain ⟨hi, hc'⟩ := List.getElem?_eq_some_iff.1 hci
      have hi' : i < t'.children.length := hc.length_eq ▸ hi
      have hf := hc.get hi hi'
      rw [at?, List.getElem?_eq_getElem hi', Option.bind_some]
      rw [List.get_eq_getElem, List.get_eq_getElem, hc'] at hf
      exact hf.places hu hk

theorem of_isLiteral (h : t.isLiteral) : Filled sections t t := by
  have : t.mention? = none ∧ t.children = [] := by
    cases t <;> first | exact ⟨rfl, rfl⟩ | cases h
  refine of_children this.1 this.1 ?_
  rw [this.2]
  exact .nil

end Filled

theorem exists_substituteAll
    (h : ∀ t ∈ ts, ∃ t', substitute sections t = .ok t' ∧ Filled sections t t') :
    ∃ ts', substituteAll sections ts = .ok ts' ∧ List.Forall₂ (Filled sections) ts ts' := by
  induction ts with
  | nil => exact ⟨[], rfl, .nil⟩
  | cons t ts ih =>
    obtain ⟨⟨t', ht, hf⟩, h⟩ := List.forall_mem_cons.1 h
    obtain ⟨ts', hts, hfs⟩ := ih h
    refine ⟨t' :: ts', ?_, .cons hf hfs⟩
    rw [substituteAll, ht, ok_bind, hts]
    rfl

theorem substitute_call {target : Tree} (h : placeholderKey? (.call target note args) = none) :
    substitute sections (.call target note args) = (do
      let target ← substitute sections target
      return .call target note (← substituteAll sections args)) := by
  by_cases hp : ∃ name key, target = .str name ∧ args = [.int key]
  · obtain ⟨name, key, rfl, rfl⟩ := hp
    have hn : name ≠ reservedName := fun hn => by simp [placeholderKey?, hn] at h
    rw [substitute, if_neg hn]
    rfl
  · exact substitute.eq_2 _ _ _ _ fun name key ht ha => hp ⟨name, key, ht, ha⟩

theorem exists_of_substituteAll_ok (h : substituteAll sections ts = .ok ts') :
    ∀ t ∈ ts, ∃ t', substitute sections t = .ok t' := by
  induction ts generalizing ts' with
  | nil => nofun
  | cons t ts ih =>
    obtain ⟨t', ht, h⟩ := bind_eq_ok.1 h
    obtain ⟨us, hts, -⟩ := bind_eq_ok.1 h
    exact List.forall_mem_cons.2 ⟨⟨t', ht⟩, ih hts⟩

theorem eq_of_placeholderKey? (h : placeholderKey? t = some key) :
    ∃ note, t = .call (.str reservedName) note [.int key] := by
  unfold placeholderKey? at h
  split at h
  · next name note k =>
    split at h
    · next hn =>
      cases h
      exact ⟨note, by rw [hn]⟩
    · cases h
  · cases h

theorem exists_lookup_of_call {target : Tree}
    (hs : substitute sections (.call target note args) = .ok t')
    (hc : ∀ u ∈ target :: args, ∀ u', substitute sections u = .ok u' →
      .placeholder key ∈ u.mentions → ∃ s, lookup sections key = .ok s)
    (hm : .placeholder key ∈ (call target note args).mentions) :
    ∃ s, lookup sections key = .ok s := by
  cases hk : placeholderKey? (.call target note args) with
  | some k =>
    obtain ⟨note', heq⟩ := eq_of_placeholderKey? hk
    cases heq
    rw [substitute, if_pos rfl] at hs
    obtain rfl : key = k := by
      simpa [mentions_eq (.call ..), mention?_reserved, Mention.ofCall, children] using hm
    exact ⟨t', hs⟩
  | none =>
    rw [substitute_call hk] at hs
    obtain ⟨target', ht, hs⟩ := bind_eq_ok.1 hs
    obtain ⟨args', ha, -⟩ := bind_eq_ok.1 hs
    rw [mentions_eq, List.mem_append, Option.mem_toList, mention?_eq_placeholder, hk] at hm
    obtain ⟨u, hu, hum⟩ := mem_mentionsAll.1 (hm.resolve_left nofun)
    obtain rfl | hua := List.mem_cons.1 hu
    · exact hc _ hu _ ht hum
    · obtain ⟨u', hs⟩ := exists_of_substituteAll_ok ha u hua
      exact hc u hu u' hs hum

theorem exists_lookup_of_substitute (ht : t.OfCode) (hs : substitute sections t = .ok t')
    (hm : .placeholder key ∈ t.mentions) : ∃ s, lookup sections key = .ok s := by
  induction ht generalizing t' with
  | @literal t hl =>
    have : t.mentions = [] := by cases t <;> first | rfl | cases hl
    simp [this] at hm
  | @var name note =>
    rw [mentions_eq, mention?_var] at hm
    split at hm <;> simp [children] at hm
  | pair _ _ ihl ihr =>
    obtain ⟨l, hl, hs⟩ := bind_eq_ok.1 hs
    obtain ⟨r, hr, -⟩ := bind_eq_ok.1 hs
    rw [mentions_pair] at hm
    obtain hm | hm := List.mem_append.1 hm
    · exact ihl hl hm
    · exact ihr hr hm
  | list _ ih =>
    obtain ⟨ts', hs, -⟩ := bind_eq_ok.1 hs
    obtain ⟨u, hu, hm⟩ := mem_mentionsAll.1 hm
    obtain ⟨u', hs⟩ := exists_of_substituteAll_ok hs u hu
    exact ih u hu hs hm
  | named _ _ ih =>
    exact exists_lookup_of_call hs (List.forall_mem_cons.2 ⟨nofun, fun u hu _ => ih u hu⟩) hm
  | dot _ ih =>
    exact exists_lookup_of_call hs
      (List.forall_mem_cons.2 ⟨nofun, List.forall_mem_cons.2 ⟨fun _ => ih, by simp⟩⟩) hm
  | remote _ _ ihd iha =>
    exact exists_lookup_of_call hs
      (List.forall_mem_cons.2 ⟨fun _ => ihd, fun u hu _ => iha u hu⟩) hm

theorem substitute_of_isLiteral (h : t.isLiteral) : substitute sections t = .ok t := by
  cases t <;> first | rfl | cases h

theorem substitute_named (hn : name ≠ reservedName) :
    substitute sections (.call (.str name) note args) = (do
      return .call (.str name) note (← substituteAll sections args)) :=
  substitute_call (by
    unfold placeholderKey?
    split
    · next heq =>
      cases heq
      exact if_neg hn
    · rfl)

theorem exists_substitute (ht : t.OfCode) (h : Fillable sections t) :
    ∃ t', substitute sections t = .ok t' ∧ Filled sections t t' := by
  induction ht with
  | literal hl => exact ⟨_, substitute_of_isLiteral hl, .of_isLiteral hl⟩
  | @var name note =>
    have hn : name ≠ reservedName := by
      rintro rfl
      obtain ⟨key, s, hk, -⟩ := h.mention? rfl
      cases hk
    have hm : (Tree.ref (.str name) note).mention? = none := if_neg hn
    exact ⟨_, rfl, .of_children hm hm (.cons (.of_isLiteral rfl) .nil)⟩
  | pair _ _ ihl ihr =>
    obtain ⟨l', hl, hfl⟩ := ihl (h.of_mem_children (by simp [children]))
    obtain ⟨r', hr, hfr⟩ := ihr (h.of_mem_children (by simp [children]))
    refine ⟨.pair l' r', ?_, .of_children rfl rfl (.cons hfl (.cons hfr .nil))⟩
    rw [substitute, hl, ok_bind, hr]
    rfl
  | list _ ih =>
    obtain ⟨ts', hs, hf⟩ := exists_substituteAll fun t ht => ih t ht (h.of_mem_children ht)
    refine ⟨.list ts', ?_, .of_children rfl rfl hf⟩
    rw [substitute, hs]
    rfl
  | @named name note args hd hargs ih =>
    -- A call of the reserved name is a placeholder whose section is there; all else is kept.
    by_cases hn : name = reservedName
    · subst hn
      obtain ⟨key, s, hk, hs⟩ := h.mention? (mention?_reserved note args)
      obtain rfl := eq_of_ofCall hk
      refine ⟨s, by rw [substitute, if_pos rfl, hs], ?_, ?_⟩
      · simp [mentions_eq (.call ..), mention?_reserved, hk, children, held, hs, Except.toOption]
      · intro path u key' hu hm
        cases path with
        | nil =>
          cases hu
          rw [mention?_reserved, hk] at hm
          cases hm
          rw [hs]
          rfl
        | cons i path =>
          -- The name and the key have no parts.
          rcases i with _ | _ | i <;> cases path <;> cases hu <;> cases hm
    · obtain ⟨ts', hs, hf⟩ := exists_substituteAll fun t ht =>
        ih t ht (h.of_mem_children (List.mem_cons_of_mem _ ht))
      have hm := mention?_named hn hd note
      refine ⟨.call (.str name) note ts', ?_,
        .of_children (hm _) (hm _) (.cons (.of_isLiteral rfl) hf)⟩
      rw [substitute_named hn, hs]
      rfl
  | @dot owner method note _ ih =>
    obtain ⟨owner', ho, hf⟩ := ih (h.of_mem_children (by simp [children]))
    have hmethod : method ≠ reservedName := by
      rintro rfl
      obtain ⟨key, s, hk, -⟩ := h.mention? (mention?_dot owner reservedName note)
      cases hk
    have hm (owner : Tree) : (Tree.call (.str ".") note [owner, .atom method]).mention? = none := by
      rw [mention?_dot, if_neg hmethod]
    have hc := List.Forall₂.cons hf (.cons (Filled.of_isLiteral (t := .atom method) rfl) .nil)
    refine ⟨_, ?_, .of_children (hm owner) (hm owner') (.cons (.of_isLiteral rfl) hc)⟩
    rw [substitute_named (by decide), substituteAll, ho]
    rfl
  | @remote owner method dotNote note args _ _ ihd iha =>
    obtain ⟨dot', hd, hfd⟩ := ihd (h.of_mem_children (by simp [children]))
    obtain ⟨ts', hs, hf⟩ := exists_substituteAll fun t ht =>
      iha t ht (h.of_mem_children (List.mem_cons_of_mem _ ht))
    have hdot := hd
    rw [substitute_named (by decide)] at hdot
    obtain ⟨us, -, hdot⟩ := bind_eq_ok.1 hdot
    cases hdot
    refine ⟨.call (.call (.str ".") dotNote us) note ts', ?_, .of_children rfl rfl (.cons hfd hf)⟩
    rw [substitute.eq_2 _ _ _ _ (by simp), hd, ok_bind, hs]
    rfl

theorem lookup_map (f : Tree → Tree) (sections : List Tree) (key : Int) :
    lookup (sections.map f) key = (lookup sections key).map f := by
  unfold lookup
  by_cases hk : key < 0
  · simp only [hk, if_true]
    rfl
  · simp only [hk, if_false, List.getElem?_map]
    cases sections[key.toNat]? <;> rfl

section

variable {note : Annotation → Annotation} {entry : List Tree → List Tree}

theorem placeholderKey?_mapParts (t : Tree) :
    placeholderKey? (mapParts note entry t) = placeholderKey? t := by
  cases hk : placeholderKey? t with
  | some key =>
    obtain ⟨n, rfl⟩ := eq_of_placeholderKey? hk
    rfl
  | none =>
    cases hk' : placeholderKey? (mapParts note entry t) with
    | none => rfl
    | some key =>
      obtain ⟨n', heq⟩ := eq_of_placeholderKey? hk'
      cases t with
      | call target n args =>
        obtain ⟨ht, -, ha⟩ := Tree.call.inj heq
        rw [mapAllParts_eq_map] at ha
        obtain ⟨u, rfl, hu⟩ := List.map_eq_singleton_iff.1 ha
        rw [mapParts_eq_str.1 ht, mapParts_eq_int.1 hu] at hk
        cases hk
      | _ => cases heq

mutual

/-- Annotations and what no walk enters make no difference to a replacement. -/
theorem substitute_mapParts (sections : List Tree) (t : Tree) :
    substitute (sections.map (mapParts note entry)) (mapParts note entry t) =
      (substitute sections t).map (mapParts note entry) := by
  cases t with
  | call target n args =>
    cases hk : placeholderKey? (.call target n args) with
    | some key =>
      obtain ⟨n, heq⟩ := eq_of_placeholderKey? hk
      cases heq
      simp only [mapParts, mapAllParts, substitute, if_true]
      exact lookup_map ..
    | none =>
      have hk' : placeholderKey? (mapParts note entry (.call target n args)) = none :=
        (placeholderKey?_mapParts _).trans hk
      rw [mapParts] at hk' ⊢
      rw [substitute_call hk, substitute_call hk', substitute_mapParts sections target,
        substituteAll_mapAllParts sections args]
      exact map_bind_comm fun target => map_bind_comm fun args => rfl
  | ref target n =>
    rw [mapParts, substitute, substitute, substitute_mapParts sections target]
    exact map_bind_comm fun target => rfl
  | pair left right =>
    rw [mapParts, substitute, substitute, substitute_mapParts sections left,
      substitute_mapParts sections right]
    exact map_bind_comm fun left => map_bind_comm fun right => rfl
  | list items =>
    rw [mapParts, substitute, substitute, substituteAll_mapAllParts sections items]
    exact map_bind_comm fun items => rfl
  | _ => rfl

theorem substituteAll_mapAllParts (sections : List Tree) (ts : List Tree) :
    substituteAll (sections.map (mapParts note entry)) (mapAllParts note entry ts) =
      (substituteAll sections ts).map (mapAllParts note entry) := by
  cases ts with
  | nil => rfl
  | cons t ts =>
    rw [mapAllParts, substituteAll, substituteAll, substitute_mapParts sections t,
      substituteAll_mapAllParts sections ts]
    exact map_bind_comm fun t => map_bind_comm fun ts => rfl

end

end

end EmbeddedTemplate.Template
