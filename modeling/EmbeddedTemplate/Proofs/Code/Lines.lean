import EmbeddedTemplate.Code.Expression
import EmbeddedTemplate.Code.Grammar
import EmbeddedTemplate.Proofs.Code.Soundness
import EmbeddedTemplate.Proofs.Outcome
import EmbeddedTemplate.Proofs.Tree.Mentions

/-!
The lines in a tree: each call in it was made for a phrase, and has the line of the first of the
tokens that were read as that phrase.
-/

namespace EmbeddedTemplate

namespace Tree

mutual

def lines : Tree → List Int
  | .ref target note => note.line.toList ++ target.lines
  | .call target note args => note.line.toList ++ target.lines ++ linesAll args
  | .pair left right => left.lines ++ right.lines
  | .list items | .sealed items => linesAll items
  | _ => []

def linesAll : List Tree → List Int
  | [] => []
  | t :: ts => t.lines ++ linesAll ts

end

mutual

def calls : Tree → List Tree
  | .ref target note => .ref target note :: target.calls
  | .call target note args => .call target note args :: (target.calls ++ callsAll args)
  | .pair left right => left.calls ++ right.calls
  | .list items | .sealed items => callsAll items
  | _ => []

def callsAll : List Tree → List Tree
  | [] => []
  | t :: ts => t.calls ++ callsAll ts

end

theorem callsAll_append (ts us : List Tree) : callsAll (ts ++ us) = callsAll ts ++ callsAll us := by
  induction ts with
  | nil => rfl
  | cons t ts ih => simp [callsAll, ih]

theorem mem_callsAll {u : Tree} {ts : List Tree} : u ∈ callsAll ts ↔ ∃ t ∈ ts, u ∈ t.calls := by
  induction ts with
  | nil => simp [callsAll]
  | cons t ts ih => simp [callsAll, ih]

mutual

theorem mem_lines (t : Tree) {l : Int} : l ∈ t.lines ↔ ∃ u ∈ t.calls, u.line? = some l := by
  cases t with
  | ref target note =>
    simp [lines, calls, mem_lines target, Tree.line?]
  | call target note args =>
    simp [lines, calls, mem_lines target, mem_linesAll args, or_and_right, exists_or, Tree.line?]
  | pair left right =>
    simp only [lines, calls, List.mem_append, mem_lines left, mem_lines right, or_and_right,
      exists_or]
  | list items => exact mem_linesAll items
  | «sealed» items => exact mem_linesAll items
  | _ => simp [lines, calls]

theorem mem_linesAll (ts : List Tree) {l : Int} :
    l ∈ linesAll ts ↔ ∃ u ∈ callsAll ts, u.line? = some l := by
  cases ts with
  | nil => simp [linesAll, callsAll]
  | cons t ts =>
    simp only [linesAll, callsAll, List.mem_append, mem_lines t, mem_linesAll ts, or_and_right,
      exists_or]

end

end Tree

namespace Code

open EmbeddedTemplate.Tree

def Category.isSolid : Category → Bool
  | .arguments | .program | .body | .parts => false
  | _ => true

namespace Phrase
mutual

def forms (p : Phrase) : List Phrase :=
  p :: match p with
  | .literal _ | .name _ | .modulePath _ | .assign _ _ => []
  | .call _ args => formsAll args
  | .block _ args parts => formsAll args ++ formsAll parts
  | .parens _ p | .unary _ p | .field p _ | .keyword _ p | .part _ p => p.forms
  | .list _ ps | .tuple _ ps | .statements ps | .clauses ps => formsAll ps
  | .binary p _ q | .access p q => p.forms ++ q.forms
  | .remoteCall p _ args => p.forms ++ formsAll args
  | .clause ps body => formsAll ps ++ body.forms

def formsAll : List Phrase → List Phrase
  | [] => []
  | p :: ps => p.forms ++ formsAll ps

end

def first? : Phrase → Option Token
  | .literal t | .name t | .modulePath t | .assign t _ => some t
  | .call t _ | .block t _ _ | .parens t _ | .list t _ | .tuple t _ | .unary t _ => some t
  | .binary p _ _ | .remoteCall p _ _ | .field p _ | .access p _ => p.first?
  | .keyword t _ | .part t _ => some t
  | .statements [] | .clauses [] | .clause [] _ => none
  | .statements (p :: _) | .clauses (p :: _) | .clause (p :: _) _ => p.first?

theorem line_of_first? {p : Phrase} {t : Token} (h : p.first? = some t) : p.line = t.line := by
  fun_induction first? p <;> simp_all [line]

variable {p : Phrase} {ps : List Phrase} {t : Tree} {trees : List Tree}

theorem self_mem_forms (p : Phrase) : p ∈ p.forms := by
  unfold forms
  exact List.mem_cons_self ..

theorem toTrees_cons_eq_ok [CharacterNames] : Phrase.toTrees (p :: ps) = .ok trees ↔
    ∃ t, p.toTree = .ok t ∧ ∃ ts, Phrase.toTrees ps = .ok ts ∧ t :: ts = trees := by
  simp only [toTrees, bind_eq_ok, pure_eq_ok, Except.ok.injEq]

section

variable [CharacterNames] {tok op : Token} {left right target : Phrase}
variable {args parts : List Phrase} {tree : Tree}

theorem toTree_call_eq_ok : (call tok args).toTree = .ok tree ↔ ∃ as, toTrees args = .ok as ∧
    .named tok.text (gatherKeywords args as) { line := some (call tok args).line } = tree := by
  simp only [toTree, pure_eq_ok, bind_eq_ok, Except.ok.injEq]

theorem toTree_block_eq_ok : (block tok args parts).toTree = .ok tree ↔
    ∃ as, toTrees args = .ok as ∧ ∃ ts, toTrees parts = .ok ts ∧
      .named tok.text (gatherKeywords args as ++ [.list ts])
        { line := some (block tok args parts).line } = tree := by
  simp only [toTree, pure_eq_ok, bind_eq_ok, Except.ok.injEq]

theorem toTree_list_eq_ok : (list tok args).toTree = .ok tree ↔
    ∃ ts, toTrees args = .ok ts ∧ .list ts = tree := by
  simp only [toTree, pure_eq_ok, bind_eq_ok, Except.ok.injEq]

theorem toTree_unary_eq_ok : (unary op target).toTree = .ok tree ↔ ∃ t, target.toTree = .ok t ∧
    .named op.text [t] { line := some (unary op target).line } = tree := by
  simp only [toTree, pure_eq_ok, bind_eq_ok, Except.ok.injEq]

theorem toTree_binary_eq_ok : (binary left op right).toTree = .ok tree ↔
    ∃ t, left.toTree = .ok t ∧ ∃ u, right.toTree = .ok u ∧
      .named op.text [t, u] { line := some (binary left op right).line } = tree := by
  simp only [toTree, pure_eq_ok, bind_eq_ok, Except.ok.injEq]

theorem toTree_remoteCall_eq_ok : (remoteCall target tok args).toTree = .ok tree ↔
    ∃ t, target.toTree = .ok t ∧ ∃ as, toTrees args = .ok as ∧
      .remote t tok.text (gatherKeywords args as)
        { line := some (remoteCall target tok args).line } = tree := by
  simp only [toTree, pure_eq_ok, bind_eq_ok, Except.ok.injEq]

theorem toTree_field_eq_ok : (field target tok).toTree = .ok tree ↔ ∃ t, target.toTree = .ok t ∧
    .call (.named "." [t, .atom tok.text] { line := some (field target tok).line })
      { line := some (field target tok).line, noParens := some true } [] = tree := by
  simp only [toTree, pure_eq_ok, bind_eq_ok, Except.ok.injEq]

theorem toTree_access_eq_ok : (access target right).toTree = .ok tree ↔
    ∃ t, target.toTree = .ok t ∧ ∃ u, right.toTree = .ok u ∧
      .remote (.moduleName ["Access"] { line := some (access target right).line }) "get" [t, u]
        { line := some (access target right).line } = tree := by
  simp only [toTree, pure_eq_ok, bind_eq_ok, Except.ok.injEq]

theorem toTree_keyword_eq_ok : (keyword tok target).toTree = .ok tree ↔
    ∃ t, target.toTree = .ok t ∧ .pair (.atom (keyName tok)) t = tree := by
  simp only [toTree, pure_eq_ok, bind_eq_ok, Except.ok.injEq]

theorem toTree_clauses_eq_ok : (clauses args).toTree = .ok tree ↔
    ∃ ts, toTrees args = .ok ts ∧ .list ts = tree := by
  simp only [toTree, pure_eq_ok, bind_eq_ok, Except.ok.injEq]

theorem toTree_clause_eq_ok : (clause args target).toTree = .ok tree ↔
    ∃ ts, toTrees args = .ok ts ∧ ∃ t, target.toTree = .ok t ∧
      .named "->" [.list ts, t] { line := some (clause args target).line } = tree := by
  simp only [toTree, pure_eq_ok, bind_eq_ok, Except.ok.injEq]

theorem toTree_part_eq_ok : (part tok target).toTree = .ok tree ↔
    ∃ t, target.toTree = .ok t ∧ .pair (.atom tok.text) t = tree := by
  simp only [toTree, pure_eq_ok, bind_eq_ok, Except.ok.injEq]

end

theorem length_toTrees [CharacterNames] {ps : List Phrase} {ts : List Tree}
    (h : toTrees ps = .ok ts) :
    ts.length = ps.length := by
  induction ps generalizing ts with
  | nil =>
    cases h
    rfl
  | cons p ps ih =>
    obtain ⟨t, ht, ts, hts, rfl⟩ := toTrees_cons_eq_ok.1 h
    rw [List.length_cons, List.length_cons, ih hts]

theorem calls_gatherKeywords {u : Tree} (h : u ∈ callsAll (gatherKeywords ps trees)) :
    u ∈ callsAll trees := by
  have hzip (q : Phrase × Tree → Bool) {t : Tree}
      (ht : t ∈ ((ps.zip trees).filter q).map (·.2)) : t ∈ trees := by
    obtain ⟨⟨p, t⟩, hm, rfl⟩ := List.mem_map.1 ht
    exact (List.of_mem_zip (List.mem_filter.1 hm).1).2
  unfold gatherKeywords at h
  dsimp only at h
  rw [mem_callsAll] at h ⊢
  split at h
  · obtain ⟨t, ht, hu⟩ := h
    exact ⟨t, hzip _ ht, hu⟩
  · obtain ⟨t, ht, hu⟩ := h
    obtain ht | ht := List.mem_append.1 ht
    · exact ⟨t, hzip _ ht, hu⟩
    · cases List.mem_singleton.1 ht
      obtain ⟨v, hv, hu⟩ := mem_callsAll.1 hu
      exact ⟨v, hzip _ hv, hu⟩

theorem isLiteral_of_value [CharacterNames] {t : Tree} {tok : Token}
    (h : Literal.value tok = .ok t) :
    t.isLiteral := by
  unfold Literal.value at h
  dsimp only at h
  split at h
  · cases hv : Literal.intValue (tok.text.toList.filter (· ≠ '_')) <;> rw [hv] at h <;> cases h
    rfl
  · cases h
    rfl
  · cases hv : Literal.stringValue (tok.text.toList.drop 1).dropLast <;> rw [hv] at h <;> cases h
    rfl
  all_goals
    cases h
    rfl

theorem calls_of_isLiteral {t : Tree} (h : t.isLiteral) : t.calls = [] := by
  cases t <;> first | rfl | cases h

def isWrapper : Phrase → Bool
  | .parens _ _ | .statements [_] => true
  | _ => false

/-- The calls in the tree of a phrase that were made for itself and not for a phrase in it. -/
inductive Makes [CharacterNames] : Phrase → Tree → Prop
  | whole {p : Phrase} {t : Tree} : p.isWrapper = false → p.toTree = .ok t → t.isCall → Makes p t
  | callee {p : Phrase} {target note args} : p.isWrapper = false →
      p.toTree = .ok (.call target note args) → target.isCall → Makes p target
  | module {target key owner name dotNote note args} :
      (access target key).toTree = .ok (.call (.call (.str ".") dotNote [owner, name]) note args) →
      Makes (access target key) owner
  | variable {atSign name var note} :
      (assign atSign name).toTree = .ok (.named "@" [var] note) → Makes (assign atSign name) var

theorem Makes.ne_empty [CharacterNames] {u : Tree} (h : Makes p u) : p ≠ .statements [] := by
  rintro rfl
  cases h with
  | whole _ h hc =>
    cases h
    cases hc
  | callee _ h _ => cases h

def Made [CharacterNames] (u : Tree) (ps : List Phrase) :
    Prop := ∃ q ∈ ps, Makes q u ∧ u.line? = some q.line

theorem Makes.made [CharacterNames] {u : Tree} (h : Makes p u) (hl : u.line? = some p.line) :
    Made u p.forms :=
  ⟨p, p.self_mem_forms, h, hl⟩

theorem Made.mono [CharacterNames] {u : Tree} {qs : List Phrase} (h : Made u ps)
    (hs : ∀ q ∈ ps, q ∈ qs) :
    Made u qs := by
  obtain ⟨q, hq, h⟩ := h
  exact ⟨q, hs q hq, h⟩

mutual

theorem made_of_toTree [CharacterNames] (p : Phrase) {t : Tree} (h : p.toTree = .ok t) {u : Tree}
    (hu : u ∈ t.calls) : Made u p.forms := by
  have whole (hw : p.isWrapper = false) (hc : t.isCall) (hl : t.line? = some p.line) :
      Made t p.forms := (Makes.whole hw h hc).made hl
  -- A call is the tree of the phrase, part of what that adds, or in the tree of a smaller phrase.
  cases p with
  | literal tok =>
    rw [calls_of_isLiteral (isLiteral_of_value h)] at hu
    cases hu
  | name tok =>
    cases h
    obtain rfl : u = _ := by simpa [Tree.var, Tree.calls] using hu
    exact whole rfl rfl rfl
  | modulePath tok =>
    cases h
    have hatoms : callsAll ((tok.text.splitOn ".").map Tree.atom) = [] := by
      induction tok.text.splitOn "." with
      | nil => rfl
      | cons s ss ih => exact ih
    obtain rfl : u = _ := by simpa [Tree.moduleName, Tree.named, Tree.calls, hatoms] using hu
    exact whole rfl rfl rfl
  | assign atSign tok =>
    cases h
    obtain rfl | rfl : u = _ ∨ u = _ := by
      simpa [Tree.named, Tree.var, Tree.calls, callsAll] using hu
    · exact whole rfl rfl rfl
    · exact (Makes.variable rfl).made rfl
  | call tok args =>
    obtain ⟨as, ha, rfl⟩ := toTree_call_eq_ok.1 h
    obtain rfl | hu : u = _ ∨ _ := by simpa [Tree.named, Tree.calls] using hu
    · exact whole rfl rfl rfl
    · exact (made_of_toTrees args ha (calls_gatherKeywords hu)).mono (by simp +contextual [forms])
  | block tok args parts =>
    obtain ⟨as, ha, ps, hp, rfl⟩ := toTree_block_eq_ok.1 h
    obtain rfl | hu | hu : u = _ ∨ u ∈ callsAll (gatherKeywords args as) ∨ u ∈ callsAll ps := by
      simpa [Tree.named, Tree.calls, callsAll_append, callsAll] using hu
    · exact whole rfl rfl rfl
    · exact (made_of_toTrees args ha (calls_gatherKeywords hu)).mono (by simp +contextual [forms])
    · exact (made_of_toTrees parts hp hu).mono (by simp +contextual [forms])
  | parens opening inner =>
    exact (made_of_toTree inner h hu).mono (by simp +contextual [forms])
  | list opening items =>
    obtain ⟨ts, ht, rfl⟩ := toTree_list_eq_ok.1 h
    exact (made_of_toTrees items ht hu).mono (by simp +contextual [forms])
  | tuple opening items =>
    have htree := h
    simp only [toTree, bind_eq_ok] at htree
    obtain ⟨ts, ht, htree⟩ := htree
    split at htree <;> cases htree
    · exact (made_of_toTrees items ht (by simpa [Tree.calls, callsAll] using hu)).mono
        (by simp +contextual [forms])
    · obtain rfl | hu : u = _ ∨ u ∈ callsAll ts := by simpa [Tree.named, Tree.calls] using hu
      · exact whole rfl rfl rfl
      · exact (made_of_toTrees items ht hu).mono (by simp +contextual [forms])
  | unary op operand =>
    obtain ⟨t, ht, rfl⟩ := toTree_unary_eq_ok.1 h
    obtain rfl | hu : u = _ ∨ u ∈ t.calls := by
      simpa [Tree.named, Tree.calls, callsAll] using hu
    · exact whole rfl rfl rfl
    · exact (made_of_toTree operand ht hu).mono (by simp +contextual [forms])
  | binary left op right =>
    obtain ⟨t, ht, v, hv, rfl⟩ := toTree_binary_eq_ok.1 h
    obtain rfl | hu | hu : u = _ ∨ u ∈ t.calls ∨ u ∈ v.calls := by
      simpa [Tree.named, Tree.calls, callsAll] using hu
    · exact whole rfl rfl rfl
    · exact (made_of_toTree left ht hu).mono (by simp +contextual [forms])
    · exact (made_of_toTree right hv hu).mono (by simp +contextual [forms])
  | remoteCall target tok args =>
    obtain ⟨t, ht, as, ha, rfl⟩ := toTree_remoteCall_eq_ok.1 h
    obtain rfl | rfl | hu | hu :
        u = _ ∨ u = _ ∨ u ∈ t.calls ∨ u ∈ callsAll (gatherKeywords args as) := by
      simpa [Tree.remote, Tree.named, Tree.calls, callsAll, or_assoc] using hu
    · exact whole rfl rfl rfl
    · exact (Makes.callee rfl h rfl).made rfl
    · exact (made_of_toTree target ht hu).mono (by simp +contextual [forms])
    · exact (made_of_toTrees args ha (calls_gatherKeywords hu)).mono (by simp +contextual [forms])
  | field target tok =>
    obtain ⟨t, ht, rfl⟩ := toTree_field_eq_ok.1 h
    obtain rfl | rfl | hu : u = _ ∨ u = _ ∨ u ∈ t.calls := by
      simpa [Tree.named, Tree.calls, callsAll] using hu
    · exact whole rfl rfl rfl
    · exact (Makes.callee rfl h rfl).made rfl
    · exact (made_of_toTree target ht hu).mono (by simp +contextual [forms])
  | access target key =>
    obtain ⟨t, ht, v, hv, rfl⟩ := toTree_access_eq_ok.1 h
    obtain rfl | rfl | rfl | hu | hu :
        u = _ ∨ u = _ ∨ u = _ ∨ u ∈ t.calls ∨ u ∈ v.calls := by
      simpa [Tree.remote, Tree.moduleName, Tree.named, Tree.calls, callsAll, or_assoc] using hu
    · exact whole rfl rfl rfl
    · exact (Makes.callee rfl h rfl).made rfl
    · exact (Makes.module h).made rfl
    · exact (made_of_toTree target ht hu).mono (by simp +contextual [forms])
    · exact (made_of_toTree key hv hu).mono (by simp +contextual [forms])
  | keyword key value =>
    obtain ⟨t, ht, rfl⟩ := toTree_keyword_eq_ok.1 h
    exact (made_of_toTree value ht (by simpa [Tree.calls] using hu)).mono
      (by simp +contextual [forms])
  | statements phrases =>
    have htree := h
    simp only [toTree, bind_eq_ok] at htree
    obtain ⟨ts, ht, htree⟩ := htree
    split at htree <;> cases htree
    · cases hu
    · exact (made_of_toTrees phrases ht (by simpa [callsAll] using hu)).mono
        (by simp +contextual [forms])
    · next hnil hone =>
      obtain rfl | hu : u = _ ∨ u ∈ callsAll ts := by simpa [Tree.named, Tree.calls] using hu
      · refine whole ?_ rfl rfl
        unfold isWrapper
        split
        · next hp => cases hp
        · next hp =>
          cases hp
          obtain ⟨t, -, ts, hts, rfl⟩ := toTrees_cons_eq_ok.1 ht
          cases hts
          exact absurd rfl (hone t)
        · rfl
      · exact (made_of_toTrees phrases ht hu).mono (by simp +contextual [forms])
  | clauses phrases =>
    obtain ⟨ts, ht, rfl⟩ := toTree_clauses_eq_ok.1 h
    exact (made_of_toTrees phrases ht hu).mono (by simp +contextual [forms])
  | clause patterns body =>
    obtain ⟨ts, ht, t, hb, rfl⟩ := toTree_clause_eq_ok.1 h
    obtain rfl | hu | hu : u = _ ∨ u ∈ callsAll ts ∨ u ∈ t.calls := by
      simpa [Tree.named, Tree.calls, callsAll] using hu
    · exact whole rfl rfl rfl
    · exact (made_of_toTrees patterns ht hu).mono (by simp +contextual [forms])
    · exact (made_of_toTree body hb hu).mono (by simp +contextual [forms])
  | part label body =>
    obtain ⟨t, ht, rfl⟩ := toTree_part_eq_ok.1 h
    exact (made_of_toTree body ht (by simpa [Tree.calls] using hu)).mono
      (by simp +contextual [forms])

theorem made_of_toTrees [CharacterNames] (ps : List Phrase) {ts : List Tree}
    (h : toTrees ps = .ok ts) {u : Tree} (hu : u ∈ callsAll ts) : Made u (formsAll ps) := by
  cases ps with
  | nil =>
    cases h
    cases hu
  | cons p ps =>
    obtain ⟨t, ht, ts, hts, rfl⟩ := toTrees_cons_eq_ok.1 h
    obtain hu | hu := List.mem_append.1 hu
    · exact (made_of_toTree p ht hu).mono (by simp +contextual [formsAll])
    · exact (made_of_toTrees ps hts hu).mono (by simp +contextual [formsAll])

end

end Phrase

variable {c : Category} {ts run : List Token} {ps : List Phrase} {p q : Phrase}

/-- The tokens are read as the phrase; separators before statements or clauses are not theirs. -/
def ReadAs (run : List Token) : Phrase → Prop
  | .statements ps => Derives .statements run ps
  | .clauses ps => Derives .clauses run ps
  | .part label body => ∃ ts, run = label :: ts ∧ Derives .body ts [body]
  | p => ∃ c, Derives c run [p]

def Within (ts : List Token) (q : Phrase) : Prop :=
  q = .statements [] ∨ ∃ pre run post, ts = pre ++ run ++ post ∧ ReadAs run q

theorem ReadAs.within (h : ReadAs ts q) : Within ts q := .inr ⟨[], ts, [], by simp, h⟩

theorem Within.behind (h : Within ts q) (us : List Token) : Within (us ++ ts) q := by
  obtain rfl | ⟨pre, run, post, rfl, hr⟩ := h
  · exact .inl rfl
  · exact .inr ⟨us ++ pre, run, post, by simp, hr⟩

theorem Within.before (h : Within ts q) (us : List Token) : Within (ts ++ us) q := by
  obtain rfl | ⟨pre, run, post, rfl, hr⟩ := h
  · exact .inl rfl
  · exact .inr ⟨pre, run, post ++ us, by simp, hr⟩

theorem Within.cons (h : Within ts q) (t : Token) : Within (t :: ts) q := h.behind [t]

def Phrase.isBody : Phrase → Bool
  | .statements _ | .clauses _ | .part _ _ => true
  | _ => false

theorem Derives.within_self (h : Derives c ts [p]) (hp : p.isBody = false) : Within ts p := by
  refine ReadAs.within ?_
  cases p with
  | statements | clauses | part => cases hp
  | _ => exact ⟨c, h⟩

theorem Derives.within_part (h : Derives .body ts [p]) (label : Token) :
    Within (label :: ts) (.part label p) :=
  (show ReadAs (label :: ts) (.part label p) from ⟨ts, rfl, h⟩).within

theorem Derives.within_statements (h : Derives .statements ts ps) : Within ts (.statements ps) :=
  ReadAs.within (q := .statements ps) h

theorem Derives.within_clauses (h : Derives .clauses ts ps) : Within ts (.clauses ps) :=
  ReadAs.within (q := .clauses ps) h

theorem within_empty : Within ts (.statements []) := .inl rfl

theorem Derives.within (h : Derives c ts ps) : ∀ q ∈ Phrase.formsAll ps, Within ts q := by
  induction h
  case' literal ht => have := (Derives.literal ht).within_self rfl
  case' name ht => have := (Derives.name ht).within_self rfl
  case' modulePath ht => have := (Derives.modulePath ht).within_self rfl
  case' assign ha hn => have := (Derives.assign ha hn).within_self rfl
  case' call hn ho h hc _ => have := (Derives.call hn ho h hc).within_self rfl
  case' block name _ _ opening _ body _ _ hn h₁ hd h₂ h₃ _ _ _ =>
    have := (Derives.block hn h₁ hd h₂ h₃).within_self rfl
    have := h₂.within_part opening
  case' parens ho h hc _ => have := (Derives.parens ho h hc).within_self rfl
  case' list ho h hc _ => have := (Derives.list ho h hc).within_self rfl
  case' tuple ho h hc _ => have := (Derives.tuple ho h hc).within_self rfl
  case' unary hop h _ => have := (Derives.unary hop h).within_self rfl
  case' binary h₁ hop h₂ _ _ => have := (Derives.binary h₁ hop h₂).within_self rfl
  case' remoteCall h₁ hd hn ho h₂ hc _ _ =>
    have := (Derives.remoteCall h₁ hd hn ho h₂ hc).within_self rfl
  case' field h hd hn _ => have := (Derives.field h hd hn).within_self rfl
  case' access h₁ ho h₂ hc _ _ => have := (Derives.access h₁ ho h₂ hc).within_self rfl
  case' keyword hk h _ => have := (Derives.keyword hk h).within_self rfl
  case' someStatements h _ => have := h.within_statements
  case' clauses h _ => have := h.within_clauses
  case' clause h₁ ha h₂ _ _ => have := (Derives.clause h₁ ha h₂).within_self rfl
  case' moreParts label _ _ _ _ _ _ _ h _ _ _ => have := h.within_part label
  all_goals simp_all [Phrase.formsAll, Phrase.forms, Within.before, within_empty]
  all_goals grind [Within.behind, Within.before, Within.cons]

theorem Derives.exists_head (h : Derives c ts ps) (hc : c.isSolid) :
    ∃ t us p qs, ts = t :: us ∧ ps = p :: qs ∧ p.first? = some t := by
  induction h with
  | binary _ _ _ ih _ | remoteCall _ _ _ _ _ _ ih _ | field _ _ _ ih | access _ _ _ _ ih _ =>
    obtain ⟨t, us, p, qs, rfl, hp, hl⟩ := ih rfl
    cases hp
    exact ⟨t, _, _, [], rfl, rfl, hl⟩
  | clause _ _ _ ih _ =>
    obtain ⟨t, us, p, qs, rfl, rfl, hl⟩ := ih rfl
    exact ⟨t, _, _, [], rfl, rfl, hl⟩
  | lastStatement _ _ ih | moreEntries _ _ _ ih _ | moreStatements _ _ _ _ ih _
  | morePatterns _ _ _ ih _ | moreClauses _ _ ih _ =>
    obtain ⟨t, us, p, qs, rfl, hp, hl⟩ := ih rfl
    cases hp
    exact ⟨t, _, _, _, rfl, rfl, hl⟩
  | literal | name | modulePath | assign | call | block | parens | list | tuple | unary | keyword =>
    exact ⟨_, _, _, _, rfl, rfl, rfl⟩
  | tighter _ _ ih | operand _ ih | primary _ ih | expression _ ih | lastEntry _ ih
  | lastPattern _ ih | lastClause _ ih => exact ih rfl
  | _ => cases hc

theorem ReadAs.exists_head (h : ReadAs run q) :
    ∃ t us, run = t :: us ∧ q.first? = some t := by
  have solid {c : Category} {ps : List Phrase} (h : Derives c run (q :: ps)) (hc : c.isSolid) :
      ∃ t us, run = t :: us ∧ q.first? = some t := by
    obtain ⟨t, us, p, qs, rfl, hp, hl⟩ := h.exists_head hc
    cases hp
    exact ⟨t, us, rfl, hl⟩
  have other (h : ∃ c, Derives c run [q]) (hb : q.isBody = false) :
      ∃ t us, run = t :: us ∧ q.first? = some t := by
    obtain ⟨c, h⟩ := h
    by_cases hc : c.isSolid
    · exact solid h hc
    · cases h with
      | someArguments h => exact solid h rfl
      | statements h => cases h <;> cases hb
      | noStatements | someStatements | clauses | moreParts => cases hb
      | _ => exact absurd rfl hc
  cases q with
  | statements ps =>
    obtain ⟨t, us, p, qs, rfl, rfl, hl⟩ := Derives.exists_head h rfl
    exact ⟨t, us, rfl, hl⟩
  | clauses ps =>
    obtain ⟨t, us, p, qs, rfl, rfl, hl⟩ := Derives.exists_head h rfl
    exact ⟨t, us, rfl, hl⟩
  | part label body =>
    obtain ⟨us, rfl, -⟩ := h
    exact ⟨label, us, rfl, rfl⟩
  | _ => exact other h rfl

theorem Within.exists_head (h : Within ts q) (hq : q ≠ .statements []) :
    ∃ pre t run post, ts = pre ++ t :: run ++ post ∧ ReadAs (t :: run) q ∧
      q.first? = some t := by
  obtain rfl | ⟨pre, run, post, rfl, hr⟩ := h
  · exact absurd rfl hq
  · obtain ⟨t, run, rfl, hl⟩ := hr.exists_head
    exact ⟨pre, t, run, post, rfl, hr, hl⟩

/-- Each call in the tree of a phrase was made for a phrase in it, and has the line of the token
with which the tokens start that were read as that phrase. -/
theorem Derives.exists_makes [CharacterNames] {tree u : Tree} (h : Derives c ts [p])
    (ht : p.toTree = .ok tree)
    (hu : u ∈ tree.calls) : ∃ q ∈ p.forms, q.Makes u ∧ ∃ pre t run post,
      ts = pre ++ t :: run ++ post ∧ ReadAs (t :: run) q ∧ u.line? = some t.line := by
  obtain ⟨q, hq, hm, hl⟩ := p.made_of_toTree ht hu
  have hin := h.within q (by simpa [Phrase.formsAll] using hq)
  obtain ⟨pre, t, run, post, hts, hr, ht⟩ := hin.exists_head hm.ne_empty
  exact ⟨q, hq, hm, pre, t, run, post, hts, hr, by rw [hl, q.line_of_first? ht]⟩

variable {code : String} {line : Int}

theorem lines_of_parse [CharacterNames] {tree : Tree} (h : parse code line = .ok tree) :
    ∀ l ∈ tree.lines, ∃ t ∈ (Lexed.ofCode code line).tokens, t.line = l := by
  intro l hl
  unfold parse at h
  dsimp only at h
  split at h
  · next phrase hp _ =>
    obtain ⟨u, hu, hul⟩ := (mem_lines tree).1 hl
    obtain ⟨q, -, -, pre, t, run, post, hts, -, ht⟩ :=
      (Phrase.derives_of_ofTokens hp).exists_makes (mapError_eq_ok.1 h) hu
    exact ⟨t, by simp [hts], Option.some.inj (ht.symm.trans hul)⟩
  · cases h
  · cases h

/-- A token that is complained about is one of the code, and the fault is on its line. -/
theorem token_of_parse [CharacterNames] {text : String} {l : Int}
    (h : parse code line = .error ⟨.before text, l⟩) :
    ∃ t ∈ (Lexed.ofCode code line).tokens, t.text = text ∧ t.line = l := by
  have hfault {left : Nat} (h : faultAt code line (Lexed.ofCode code line) left =
      ⟨.before text, l⟩) : ∃ t ∈ (Lexed.ofCode code line).tokens, t.text = text ∧ t.line = l := by
    simp only [faultAt] at h
    split at h
    · next _ t ht =>
      simp only [CodeFault.mk.injEq, Cause.before.injEq] at h
      exact ⟨t, List.mem_of_getElem? ht, h.1, h.2⟩
    · cases h
    · cases h
  unfold parse at h
  dsimp only at h
  split at h
  · next phrase _ _ =>
    cases ht : phrase.toTree <;> rw [ht] at h <;> cases h
  · exact hfault (Except.error.inj h)
  · exact hfault (Except.error.inj h)

end Code

end EmbeddedTemplate
