import EmbeddedTemplate.Proofs.Code.Lines
import EmbeddedTemplate.Proofs.Code.Relabelling
import EmbeddedTemplate.Proofs.Tree.Mapping

namespace EmbeddedTemplate

def offsetNote (k : Int) (note : Annotation) : Annotation :=
  { note with line := note.line.map (· + k) }

@[simp] theorem offsetNote_some (k l : Int) (noParens : Option Bool) :
    offsetNote k ⟨some l, noParens⟩ = ⟨some (l + k), noParens⟩ := rfl

@[simp] theorem offsetNote_none (k : Int) (noParens : Option Bool) :
    offsetNote k ⟨none, noParens⟩ = ⟨none, noParens⟩ := rfl

namespace Tree

def offset (k : Int) : Tree → Tree := mapParts (offsetNote k) id

variable (k : Int) (note : Annotation)

theorem mapAllParts_offset (ts : List Tree) :
    mapAllParts (offsetNote k) id ts = ts.map (offset k) := mapAllParts_eq_map ts

@[simp] theorem offset_nil : offset k .nil = .nil := rfl

@[simp] theorem offset_str (s : String) : offset k (.str s) = .str s := rfl

@[simp] theorem offset_atom (name : String) : offset k (.atom name) = .atom name := rfl

@[simp] theorem offset_pair (left right : Tree) :
    offset k (.pair left right) = .pair (left.offset k) (right.offset k) := rfl

@[simp] theorem offset_list (items : List Tree) :
    offset k (.list items) = .list (items.map (offset k)) :=
  congrArg Tree.list (mapAllParts_offset k items)

@[simp] theorem offset_call (target : Tree) (args : List Tree) :
    offset k (.call target note args) =
      .call (target.offset k) (offsetNote k note) (args.map (offset k)) :=
  congrArg (Tree.call _ _) (mapAllParts_offset k args)

@[simp] theorem offset_var (name : String) :
    offset k (.var name note) = .var name (offsetNote k note) := rfl

@[simp] theorem offset_named (name : String) (args : List Tree) :
    offset k (.named name args note) = .named name (args.map (offset k)) (offsetNote k note) := by
  simp [named]

@[simp] theorem offset_moduleName (parts : List String) :
    offset k (.moduleName parts note) = .moduleName parts (offsetNote k note) := by
  simp [moduleName, Function.comp_def]

@[simp] theorem offset_remote (owner : Tree) (name : String) (args : List Tree) :
    offset k (.remote owner name args note) =
      .remote (owner.offset k) name (args.map (offset k)) (offsetNote k note) := by
  simp [remote]

theorem offset_of_isLiteral {t : Tree} (h : t.isLiteral) : offset k t = t := by
  cases t <;> first | rfl | cases h

@[simp] theorem line?_offset (t : Tree) : (t.offset k).line? = t.line?.map (· + k) := by
  cases t <;> rfl

end Tree

namespace Code

open EmbeddedTemplate.Tree

def Relabelling.offset (k : Int) : Relabelling where
  apply t := { t with line := t.line + k }
  terminal _ := rfl

variable (k : Int)

@[simp] theorem text_offset (t : Token) : (Relabelling.offset k t).text = t.text := rfl

@[simp] theorem keyName_offset (t : Token) :
    Phrase.keyName (Relabelling.offset k t) = Phrase.keyName t := rfl

namespace Phrase

theorem first?_relabel (r : Relabelling) (p : Phrase) : (p.relabel r).first? = p.first?.map r := by
  fun_induction first? p <;> simp_all [relabel, first?]

@[simp] theorem isKeyword_relabel (r : Relabelling) (p : Phrase) :
    (p.relabel r).isKeyword = p.isKeyword := by
  cases p <;> rfl

theorem line_relabel_offset {p : Phrase} (h : p.first?.isSome) :
    (p.relabel (.offset k)).line = p.line + k := by
  obtain ⟨t, ht⟩ := Option.isSome_iff_exists.1 h
  have hr : (p.relabel (.offset k)).first? = some (Relabelling.offset k t) := by
    rw [first?_relabel, ht, Option.map_some]
  rw [line_of_first? ht, line_of_first? hr]
  rfl

def Headed (ps : List Phrase) : Prop := ∀ q ∈ ps, q ≠ .statements [] → q.first?.isSome

section

variable {p : Phrase} {ps qs : List Phrase}

theorem Headed.tail (h : Headed (p :: ps)) : Headed ps := (List.forall_mem_cons.1 h).2

theorem Headed.left (h : Headed (ps ++ qs)) : Headed ps := (List.forall_mem_append.1 h).1

theorem Headed.right (h : Headed (ps ++ qs)) : Headed qs := (List.forall_mem_append.1 h).2

end

theorem gatherKeywords_relabel (r : Relabelling) (ps : List Phrase) (ts : List Tree) :
    gatherKeywords (ps.map (relabel r)) (ts.map (Tree.offset k)) =
      (gatherKeywords ps ts).map (Tree.offset k) := by
  unfold gatherKeywords
  simp only [List.zip_map, List.filter_map, List.map_map, Function.comp_def, Prod.map_fst,
    Prod.map_snd, isKeyword_relabel, List.isEmpty_map]
  split <;> simp [Function.comp_def]

mutual

theorem toTree_offset [CharacterNames] (p : Phrase) (h : Headed p.forms) :
    (p.relabel (.offset k)).toTree = p.toTree.map (Tree.offset k) := by
  -- A phrase without a token would stay on line 0; only an empty body has none, and leaves no line.
  have hl (hp : p ≠ .statements []) : (p.relabel (.offset k)).line = p.line + k :=
    line_relabel_offset k (h p p.self_mem_forms hp)
  cases p with
  | literal t =>
    change Literal.value t = (Literal.value t).map (Tree.offset k)
    cases hv : Literal.value t with
    | error e => rfl
    | ok v => exact congrArg Except.ok (offset_of_isLiteral k (isLiteral_of_value hv)).symm
  | name t | modulePath t | assign t u =>
    have hl := hl nofun
    simp only [relabel] at hl ⊢
    simp [toTree, hl, pure_eq_ok, Except.map]
  | call t args =>
    have hl := hl nofun
    simp only [relabel, relabelAll_eq_map] at hl ⊢
    simp only [toTree, hl, toTrees_offset args h.tail]
    exact map_bind_comm fun ts => by simp [Except.map, gatherKeywords_relabel, pure_eq_ok]
  | block t args parts =>
    have hl := hl nofun
    simp only [relabel, relabelAll_eq_map] at hl ⊢
    simp only [toTree, hl, toTrees_offset args h.tail.left, toTrees_offset parts h.tail.right]
    exact map_bind_comm fun ts => map_bind_comm fun us => by
      simp [Except.map, gatherKeywords_relabel, pure_eq_ok]
  | parens t inner => exact toTree_offset inner h.tail
  | list t items =>
    simp only [relabel, relabelAll_eq_map, toTree, toTrees_offset items h.tail]
    exact map_bind_comm fun ts => by simp [Except.map, pure_eq_ok]
  | tuple t items =>
    have hl := hl nofun
    simp only [relabel, relabelAll_eq_map] at hl ⊢
    simp only [toTree, hl, toTrees_offset items h.tail]
    refine map_bind_comm fun ts => ?_
    match ts with
    | [] | [_] | [_, _] | _ :: _ :: _ :: _ => simp [Except.map, pure_eq_ok]
  | unary op operand =>
    have hl := hl nofun
    simp only [relabel] at hl ⊢
    simp only [toTree, hl, toTree_offset operand h.tail]
    exact map_bind_comm fun t => by simp [Except.map, pure_eq_ok]
  | binary left op right =>
    have hl := hl nofun
    simp only [relabel] at hl ⊢
    simp only [toTree, hl, toTree_offset left h.tail.left, toTree_offset right h.tail.right]
    exact map_bind_comm fun t => map_bind_comm fun u => by simp [Except.map, pure_eq_ok]
  | remoteCall target t args =>
    have hl := hl nofun
    simp only [relabel, relabelAll_eq_map] at hl ⊢
    simp only [toTree, hl, toTree_offset target h.tail.left, toTrees_offset args h.tail.right]
    exact map_bind_comm fun u => map_bind_comm fun ts => by
      simp [Except.map, gatherKeywords_relabel, pure_eq_ok]
  | field target t =>
    have hl := hl nofun
    simp only [relabel] at hl ⊢
    simp only [toTree, hl, toTree_offset target h.tail]
    exact map_bind_comm fun u => by simp [Except.map, pure_eq_ok]
  | access target key =>
    have hl := hl nofun
    simp only [relabel] at hl ⊢
    simp only [toTree, hl, toTree_offset target h.tail.left, toTree_offset key h.tail.right]
    exact map_bind_comm fun t => map_bind_comm fun u => by simp [Except.map, pure_eq_ok]
  | keyword t value =>
    simp only [relabel, toTree, toTree_offset value h.tail]
    exact map_bind_comm fun u => by simp [Except.map, pure_eq_ok]
  | statements phrases =>
    cases phrases with
    | nil => rfl
    | cons q qs =>
      have hl := hl nofun
      simp only [relabel, relabelAll_eq_map] at hl ⊢
      simp only [toTree, hl, toTrees_offset (q :: qs) h.tail]
      refine map_bind_comm fun ts => ?_
      match ts with
      | [] | [_] | _ :: _ :: _ => simp [Except.map, pure_eq_ok]
  | clauses phrases =>
    simp only [relabel, relabelAll_eq_map, toTree, toTrees_offset phrases h.tail]
    exact map_bind_comm fun ts => by simp [Except.map, pure_eq_ok]
  | clause patterns body =>
    have hl := hl nofun
    simp only [relabel, relabelAll_eq_map] at hl ⊢
    simp only [toTree, hl, toTrees_offset patterns h.tail.left, toTree_offset body h.tail.right]
    exact map_bind_comm fun ts => map_bind_comm fun u => by simp [Except.map, pure_eq_ok]
  | part t body =>
    simp only [relabel, toTree, toTree_offset body h.tail]
    exact map_bind_comm fun u => by simp [Except.map, pure_eq_ok]

theorem toTrees_offset [CharacterNames] (ps : List Phrase) (h : Headed (formsAll ps)) :
    toTrees (ps.map (relabel (.offset k))) = (toTrees ps).map (List.map (Tree.offset k)) := by
  cases ps with
  | nil => rfl
  | cons p ps =>
    rw [List.map_cons, toTrees, toTrees, toTree_offset p h.left, toTrees_offset ps h.right]
    exact map_bind_comm fun t => map_bind_comm fun ts => rfl

end

end Phrase

theorem Derives.headed {c : Category} {ts : List Token} {ps : List Phrase} (h : Derives c ts ps) :
    Phrase.Headed (Phrase.formsAll ps) := by
  intro q hq hne
  obtain ⟨_, t, _, _, -, -, ht⟩ := (h.within q hq).exists_head hne
  rw [ht]
  rfl

def Lexeme.offset (l : Lexeme) : Lexeme := { l with line := l.line + k }

def Lexed.offset (l : Lexed) : Lexed where
  lexemes := l.lexemes.map (Lexeme.offset k)
  rejected := l.rejected.map fun r => (r.1, r.2 + k)

def CodeFault.offset (fault : CodeFault) : CodeFault := { fault with line := fault.line + k }

namespace Lexed

theorem lineAfter_offset (line : Int) (c : Char) :
    lineAfter (line + k) c = lineAfter line c + k := by
  unfold lineAfter
  split
  · exact Int.add_right_comm line k 1
  · rfl

theorem scan_offset (taken : Nat) (line : Int) (cs : List Char) :
    scan taken (line + k) cs = (scan taken line cs).offset k := by
  induction cs generalizing taken line with
  | nil => cases taken <;> rfl
  | cons c cs ih =>
    cases taken with
    | succ taken => rw [scan, scan, lineAfter_offset, ih]
    | zero =>
      rw [scan, scan]
      cases Lexeme.first? c cs with
      | none => rfl
      | some found =>
        simp only [lineAfter_offset, ih]
        rfl

theorem tokens_offset (l : Lexed) : (l.offset k).tokens = l.tokens.map (Relabelling.offset k) := by
  have h (x : Lexeme) : (x.offset k).token? = x.token?.map (Relabelling.offset k) := by
    unfold Lexeme.token? Lexeme.offset
    split <;> simp_all [Relabelling.offset]
  simp only [tokens, offset, List.filterMap_map, List.map_filterMap, Function.comp_def, h]

end Lexed

theorem faultAt_offset (code : String) (line : Int) (lexed : Lexed) (left : Nat) :
    faultAt code (line + k) (lexed.offset k) left = (faultAt code line lexed left).offset k := by
  have hr : (lexed.offset k).rejected = lexed.rejected.map fun r => (r.1, r.2 + k) := rfl
  simp only [faultAt, Lexed.tokens_offset, List.length_map, List.getElem?_map, hr]
  cases lexed.tokens[lexed.tokens.length - left]? with
  | some t => rfl
  | none =>
    cases lexed.rejected with
    | some r => rfl
    | none => exact congrArg (CodeFault.mk .endOfCode) (Int.add_right_comm ..)

/-- Code further down has its tree, or its fault, further down. -/
theorem parse_offset [CharacterNames] (code : String) (line : Int) :
    parse code (line + k) = mapBoth (CodeFault.offset k) (Tree.offset k) (parse code line) := by
  have hlexed : Lexed.ofCode code (line + k) = (Lexed.ofCode code line).offset k :=
    Lexed.scan_offset k 0 line code.toList
  unfold parse
  simp only [hlexed, Lexed.tokens_offset, Phrase.ofTokens_relabel, faultAt_offset]
  generalize Lexed.ofCode code line = lexed
  obtain ⟨lexemes, rejected⟩ := lexed
  cases hp : Phrase.ofTokens (Lexed.mk lexemes rejected).tokens with
  | error left => cases rejected <;> rfl
  | ok phrase =>
    cases rejected with
    | some r => rfl
    | none =>
      have hh := (Phrase.derives_of_ofTokens hp).headed
      change (phrase.relabel (.offset k)).toTree.mapError _ = _
      rw [phrase.toTree_offset k hh.left]
      cases h : phrase.toTree <;> simp [Except.map, mapBoth, h, CodeFault.offset]

end Code

end EmbeddedTemplate
