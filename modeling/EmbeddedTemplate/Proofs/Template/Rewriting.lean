import EmbeddedTemplate.Proofs.Template.Assigns
import EmbeddedTemplate.Proofs.Template.Change
import EmbeddedTemplate.Proofs.Template.Substitute

namespace EmbeddedTemplate.Template

structure Engine.Mirrors (f : Tree → Tree) (first second : Engine) : Prop where
  init : ∀ options, second.init options = f (first.init options)
  text : ∀ buffer content, second.text (f buffer) content = (first.text buffer content).map f
  expression : ∀ buffer marker {tree tree'}, f tree' = f tree →
    second.expression (f buffer) marker tree' = (first.expression buffer marker tree).map f
  body : ∀ buffer, second.body (f buffer) = (first.body buffer).map f

/-- Rewriting does the same whether or not what is put into a tree was rewritten before. -/
def Absorbs (f : Tree → Tree) : Prop :=
  ∀ sections tree,
    (substitute (sections.map f) tree).map f = (substitute sections tree).map f

section

variable {f : Tree → Tree} {first second : Engine} {file : String} {options : Options}

theorem Engine.Mirrors.add (h : first.Mirrors f second) (tag : Tag) (buffer : Tree)
    {tree tree' : Tree} (ht : f tree' = f tree) :
    second.add file tag (f buffer) tree' = (first.add file tag buffer tree).map f := by
  rw [Engine.add, h.expression buffer tag.marker ht, Engine.add]
  cases first.expression buffer tag.marker tree <;> rfl

theorem Engine.Mirrors.close (h : first.Mirrors f second) (hf : Absorbs f) (tag : Tag)
    (outer : Tree) (sections : List Tree) (tree : Tree) :
    (substitute (sections.map f) tree >>= second.add file tag (f outer)) =
      (substitute sections tree >>= first.add file tag outer).map f := by
  have : (substitute (sections.map f) tree >>= second.add file tag (f outer)).map id =
      (substitute sections tree >>= fun t => (first.add file tag outer t).map f).map id :=
    map_bind_congr (hf sections tree) fun a b hab => by rw [h.add tag outer hab]
  simp only [Except.map_id, id_eq] at this
  rw [this]
  cases substitute sections tree <;> rfl

theorem Engine.Mirrors.carries [CharacterNames] (h : first.Mirrors f second) (hf : Absorbs f) :
    Change.Carries { tree := f } file first second where
  texts := keepsGaps_id
  distance _ _ := rfl
  fault _ _ := rfl
  text buffer content := by rw [Change.outcome_eq_map rfl]; exact h.text buffer content
  tag tag buffer := by
    rw [Change.outcome_eq_map rfl, Engine.ofTag, Engine.ofTag]
    change (parseCode file tag.code tag.line >>= _) = _
    cases parseCode file tag.code tag.line with
    | error e => rfl
    | ok tree => exact h.add tag buffer rfl
  block closed := by
    rw [Change.outcome_eq_map rfl, Engine.ofBlock, Engine.ofBlock]
    change (parseCode file closed.source closed.opening.line >>= _) = _
    cases parseCode file closed.source closed.opening.line with
    | error e => rfl
    | ok tree => exact h.close hf closed.opening closed.outer closed.sections tree

theorem Engine.Mirrors.compile [CharacterNames] (h : first.Mirrors f second) (hf : Absorbs f)
    (options : Options)
    (source : String) : compile second options source = (compile first options source).map f := by
  cases ht : tokenize source options.line options.trim with
  | error e =>
    rw [compile_eq_error ht, compile_eq_error ht]
    rfl
  | ok tokens =>
    have hb buffer :
        second.body (f buffer) = Change.outcome { tree := f } f (first.body buffer) := by
      rw [Change.outcome_eq_map rfl, h.body]
    have hc := (h.carries hf).compileTokens rfl (h.init options) hb tokens
    have htokens : tokens.map (Change.token { tree := f }) = tokens :=
      (List.map_congr_left fun token _ => by cases token <;> rfl).trans (List.map_id tokens)
    rw [htokens, Change.outcome_eq_map rfl] at hc
    rw [compile_eq ht, compile_eq ht, hc]

end

namespace Engine

mutual

theorem expandAssigns_substitute (sections : List Tree) (t : Tree) :
    (substitute (sections.map expandAssigns) t).map expandAssigns =
      (substitute sections t).map expandAssigns := by
  unfold substitute
  split
  · split
    · rw [lookup_map]
      cases lookup sections _ with
      | error e => rfl
      | ok t => exact congrArg Except.ok (expandAssigns_expandAssigns t)
    · rfl
  · next target note args _ =>
    refine map_bind_congr (expandAssigns_substitute sections target) fun target target' ht => ?_
    refine map_bind_congr (expandAllAssigns_substituteAll sections args) fun args args' ha => ?_
    exact congrArg Except.ok (expandAssigns_call_congr ht ha)
  · next target note =>
    refine map_bind_congr (expandAssigns_substitute sections target) fun target target' ht => ?_
    simp only [pure_eq_ok, Except.map, expandAssigns, ht]
  · next left right =>
    refine map_bind_congr (expandAssigns_substitute sections left) fun left left' hl => ?_
    refine map_bind_congr (expandAssigns_substitute sections right) fun right right' hr => ?_
    simp only [pure_eq_ok, Except.map, expandAssigns, hl, hr]
  · next items =>
    refine map_bind_congr (expandAllAssigns_substituteAll sections items) fun items items' hi => ?_
    simp only [pure_eq_ok, Except.map, expandAssigns, hi]
  · rfl

theorem expandAllAssigns_substituteAll (sections : List Tree) (ts : List Tree) :
    (substituteAll (sections.map expandAssigns) ts).map expandAllAssigns =
      (substituteAll sections ts).map expandAllAssigns := by
  cases ts with
  | nil => rfl
  | cons t ts =>
    refine map_bind_congr (expandAssigns_substitute sections t) fun t t' ht => ?_
    refine map_bind_congr (expandAllAssigns_substituteAll sections ts) fun ts ts' hts => ?_
    simp only [pure_eq_ok, Except.map, expandAllAssigns, ht, hts]

end

theorem mirrors_smart : concat.Mirrors expandAssigns smart where
  init _ := rfl
  text buffer content := by
    simp only [smart, concat, Except.map, expandAssigns_concatenation]
    rfl
  expression buffer marker {tree tree'} h := by
    have hl : tree'.line? = tree.line? := by
      rw [← line?_expandAssigns tree', h, line?_expandAssigns]
    simp only [smart, concat, h]
    split
    · simp only [Except.map, expandAssigns_concatenation, expandAssigns_textOf]
    · split
      · simp only [Except.map, expandAssigns_evaluation]
      · rw [line?_expandAssigns]
        rfl
  body _ := rfl

/--
Compiling with look-ups is compiling without them and expanding the forms `@name` of the artifact
afterwards, in one walk from its top; where one of the two fails, so does the other, with the same
fault.
-/
theorem compile_smart [CharacterNames] (options : Options) (source : String) :
    (∀ expanded, compile smart { options with engine := .smart } source = .ok expanded ↔
      ∃ artifact, compile concat { options with engine := .concat } source = .ok artifact ∧
        ∀ depth, artifact.depth < depth →
          artifact.prewalk rewriteAssign depth = some expanded) ∧
    ∀ fault, compile smart { options with engine := .smart } source = .error fault ↔
      compile concat { options with engine := .concat } source = .error fault := by
  have h : compile smart { options with engine := .smart } source =
      (compile concat { options with engine := .concat } source).map expandAssigns :=
    mirrors_smart.compile expandAssigns_substitute { options with engine := .smart } source
  rw [h]
  cases compile concat { options with engine := .concat } source with
  | error e => exact ⟨by simp [Except.map], fun fault => by simp [Except.map]⟩
  | ok artifact =>
    refine ⟨fun expanded => ⟨fun h => ?_, ?_⟩, fun fault => by simp [Except.map]⟩
    · cases h
      exact ⟨artifact, rfl, fun depth hd => prewalk_rewriteAssign artifact hd⟩
    · rintro ⟨_, ⟨⟩, hw⟩
      have := hw (artifact.depth + 1) (Nat.lt_succ_self _)
      rw [prewalk_rewriteAssign artifact (Nat.lt_succ_self _)] at this
      exact congrArg Except.ok (Option.some.inj this)

end Engine

end EmbeddedTemplate.Template
