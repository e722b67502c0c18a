import EmbeddedTemplate.Proofs.Code.Joining
import EmbeddedTemplate.Proofs.Code.RoundTrip

namespace EmbeddedTemplate.Code

open Printer
open EmbeddedTemplate.Tree

variable {c : Char} {cs : List Char} {name source : String} {t u : Tree} {args : List Tree}

def isMarking : List Char → Bool
  | [] => true
  | m :: more => isNameMark m && more.isEmpty

def isIdentifier (name : String) : Bool :=
  (Word.ofText? name).isNone && match name.toList with
    | [] => false
    | c :: cs => isNameStart c && isMarking (cs.dropWhile isNameRest)

theorem first?_identifier (hc : isNameStart c) (hm : isMarking (cs.dropWhile isNameRest)) :
    Lexeme.first? c cs = some (.terminal .name, cs.length) := by
  obtain ⟨run, marks, rfl, hr, hrun, hmarks⟩ := Lexeme.exists_takeWhile isNameRest cs
  rw [List.dropWhile_append_of_pos hrun] at hm
  rw [Lexeme.first?_of_isNameStart hc]
  match marks with
  | [] =>
    simp [Lexeme.key?, Lexeme.name?, Lexeme.nameRest, hc, List.takeWhile_eq_self_iff.2 hrun]
  | m :: more =>
    have hstop : isNameRest m = false := hmarks m rfl
    rw [List.dropWhile_cons_of_neg (by simp [hstop])] at hm
    obtain ⟨hmark, hmore⟩ := Bool.and_eq_true_iff.1 hm
    obtain rfl := List.isEmpty_iff.1 hmore
    rw [Lexeme.key?_stop hc hrun hstop, Lexeme.name?_stop hc hrun hstop, hmark]
    simp [Lexeme.isColon]

theorem isToken_of_isIdentifier (h : isIdentifier name) : IsToken .name name := by
  obtain ⟨hfree, hchars⟩ := Bool.and_eq_true_iff.1 h
  split at hchars
  · cases hchars
  · next c cs hname =>
    obtain ⟨hc, hm⟩ := Bool.and_eq_true_iff.1 hchars
    obtain rfl : name = String.ofList (c :: cs) := by rw [← hname, String.ofList_toList]
    have ht : Lexeme.token? ⟨.terminal .name, String.ofList (c :: cs), 1⟩ =
        some ⟨.name, String.ofList (c :: cs), 1⟩ := by
      unfold Lexeme.token?
      dsimp only
      rw [Option.isNone_iff_eq_none.1 hfree]
      rfl
    rw [IsToken, tokensAt?_of_tokens?, hname, Lexed.tokensAt?_some (first?_identifier hc hm),
      List.take_length, List.drop_length, ht]
    rfl

theorem binaryTier?_ne_zero (h : name ≠ "<-") : binaryTier? name ≠ some 0 := by
  intro htier
  obtain ⟨x, hx, hx0⟩ := Option.bind_eq_some_iff.1 htier
  obtain ⟨-, htext⟩ := spelled?_eq_some hx
  unfold Terminal.tier? at hx0
  split at hx0 <;> cases hx0
  exact h (Option.some.inj htext).symm

/--
Trees of identifiers and numbers, operators other than `<-` and the two signs in front, accesses,
fields and calls.
-/
inductive Operation : Tree → Prop
  | var {name : String} {line : Option Int} : isIdentifier name → Operation (.var name ⟨line, none⟩)
  | int {n : Nat} : Binary64.digitCount n ≤ maxDigits → Operation (.int n)
  | binary {name : String} {t u : Tree} {line : Option Int} : (binaryTier? name).isSome →
      name ≠ "<-" → Operation t → Operation u → Operation (.named name [t, u] ⟨line, none⟩)
  | unary {name : String} {t : Tree} {line : Option Int} : name ∈ ["not", "!"] → Operation t →
      Operation (.named name [t] ⟨line, none⟩)
  | access {t u : Tree} {line line' line'' : Option Int} : Operation t → Operation u →
      Operation (.call (.named "." [.moduleName ["Access"] ⟨line, none⟩, .atom "get"]
        ⟨line', none⟩) ⟨line'', none⟩ [t, u])
  | field {t : Tree} {name : String} {line line' : Option Int} : isIdentifier name →
      Operation t →
      Operation (.call (.named "." [t, .atom name] ⟨line, none⟩) ⟨line', some true⟩ [])
  | call {name : String} {args : List Tree} {line : Option Int} : isIdentifier name →
      name ≠ "__block__" → name ≠ "__aliases__" → (∀ t ∈ args, Operation t) →
      Operation (.named name args ⟨line, none⟩)
  | remoteCall {t : Tree} {name : String} {args : List Tree} {line line' : Option Int} :
      isIdentifier name → Operation t → (∀ t ∈ args, Operation t) →
      Operation (.call (.named "." [t, .atom name] ⟨line, none⟩) ⟨line', none⟩ args)

namespace Operation

theorem isSections_eq_false (h : Operation t) : isSections t = false := by
  cases h <;> rfl

theorem any_isSections (h : ∀ t ∈ args, Operation t) :
    args.getLast?.any isSections = false := by
  cases hlast : args.getLast? with
  | none => rfl
  | some t => exact (h t (List.mem_of_getLast? hlast)).isSections_eq_false

theorem isAccess_eq_false (h : Operation t) (name : String) : isAccess t (.atom name) = false := by
  have hnamed (target : String) (args : List Tree) (note : Annotation)
      (ht : target ≠ "__aliases__") :
      isAccess (.named target args note) (.atom name) = false := by
    unfold isAccess Tree.named
    split <;> simp_all
  cases h with
  | var | int | access | field | remoteCall => rfl
  | binary hname =>
    refine hnamed _ _ _ ?_
    rintro rfl
    revert hname
    decide
  | unary hname =>
    refine hnamed _ _ _ ?_
    rintro rfl
    revert hname
    decide
  | call _ _ ha => exact hnamed _ _ _ ha

theorem legible [CharacterNames] (h : Operation t) : Legible .expression t := by
  induction h with
  | var hname => exact .var (isToken_of_isIdentifier hname)
  | int hn => exact .int hn
  | binary hname hne ht hu iht ihu =>
    obtain ⟨k, hk⟩ := Option.isSome_iff_exists.1 hname
    exact .binary hk iht ihu fun h0 => absurd (h0 ▸ hk) (binaryTier?_ne_zero hne)
  | @unary name t line hname ht ih =>
    refine .unary ?_ ih ?_
    · fin_cases hname <;> decide
    · rintro ⟨hsign, -⟩
      fin_cases hname <;> revert hsign <;> decide
  | access _ _ iht ihu => exact .access iht ihu
  | field hname _ ih => exact .field (isToken_of_isIdentifier hname) ih
  | call hname hb ha hargs ih =>
    exact .call (isToken_of_isIdentifier hname) hb ha ih (any_isSections hargs)
  | remoteCall hname ht hargs iht ihargs =>
    refine .remoteCall (isToken_of_isIdentifier hname) iht ?_ ihargs
    rw [ht.isAccess_eq_false, Bool.false_and]

theorem blockless (h : Operation t) : Blockless t := by
  have hcall {target : Tree} {note : Annotation} {args : List Tree} (htarget : Blockless target)
      (hlast : args.getLast?.any isSections = false) (hargs : ∀ t ∈ args, Blockless t) :
      Blockless (.call target note args) := by
    intro u hu
    obtain rfl | hu := List.mem_cons.1 hu
    · cases target with
      | str name => simp [Tree.isBlock, hlast]
      | _ => rfl
    obtain hu | hu := List.mem_append.1 hu
    · exact htarget u hu
    · obtain ⟨t, ht, hu⟩ := mem_callsAll.1 hu
      exact hargs t ht u hu
  have hleaf {t : Tree} (ht : t.calls = []) : Blockless t := fun u hu => by
    rw [ht] at hu
    cases hu
  have hatom (name : String) : Blockless (.atom name) := hleaf rfl
  have hdot {t : Tree} {name : String} {note : Annotation} (ht : Blockless t) :
      Blockless (.named "." [t, .atom name] note) :=
    hcall (hleaf rfl) rfl (List.forall_mem_cons.2 ⟨ht, List.forall_mem_singleton.2 (hatom name)⟩)
  induction h with
  | var => exact List.forall_mem_singleton.2 rfl
  | int => exact hleaf rfl
  | binary _ _ _ hu iht ihu =>
    exact hcall (hleaf rfl) hu.isSections_eq_false
      (List.forall_mem_cons.2 ⟨iht, List.forall_mem_singleton.2 ihu⟩)
  | unary _ ht ih =>
    exact hcall (hleaf rfl) ht.isSections_eq_false (List.forall_mem_singleton.2 ih)
  | access _ hu iht ihu =>
    have hmodule (note : Annotation) : Blockless (.moduleName ["Access"] note) :=
      hcall (hleaf rfl) rfl (List.forall_mem_singleton.2 (hatom "Access"))
    exact hcall (hdot (hmodule _)) hu.isSections_eq_false
      (List.forall_mem_cons.2 ⟨iht, List.forall_mem_singleton.2 ihu⟩)
  | field _ _ ih => exact hcall (hdot ih) rfl (List.forall_mem_nil _)
  | call _ _ _ hargs ih => exact hcall (hleaf rfl) (any_isSections hargs) ih
  | remoteCall _ _ hargs iht ihargs => exact hcall (hdot iht) (any_isSections hargs) ihargs

end Operation

def operationExample : Tree :=
  .call (.named "." [.moduleName ["Access"], .atom "get"]) {} [
    .call (.named "." [.named "not" [.named "+" [.var "x", .int 1]], .atom "a"])
      ⟨none, some true⟩ [],
    .named "-" [.var "y", .named "-" [.var "z", .int 2]]]

/-- The text of an operation is read as the operation, whatever operations are in it. -/
theorem parse_toSource_of_operation [CharacterNames] (h : Operation t) :
    ∃ source u, toSource t = .ok source ∧
    parse source 1 = .ok u ∧ u.unlined = t.unlined := by
  obtain ⟨source, p, u, hsource, hr, hd, hp, hu⟩ := exists_reading h.legible
  obtain ⟨q, hq, hparse⟩ := parse_of_derives hr ⟨_, hd⟩
  have hdo : ∀ t ∈ (Lexed.ofCode source 1).tokens, t.terminal ≠ .word .doWord := by
    intro t ht hword
    have hblock := hd.haveBlock (fun t ht => Lexed.spelled_of_mem_tokens ht) ⟨t, ht, hword⟩
      (toTrees_singleton hp)
    exact not_haveBlock_of_unlined h.blockless hu hblock
  obtain rfl := List.singleton_inj.1 (hd.program_unique hq hdo)
  refine ⟨source, u, hsource, ?_, hu⟩
  rw [hparse, hp]
  rfl

theorem parse_toSource_access : ∃ source u, toSource operationExample = .ok source ∧
    parse source 1 = .ok u ∧ u.unlined = operationExample.unlined := by
  have hvar (name : String) (hname : isIdentifier name) : Operation (.var name) := .var hname
  have hsum : Operation (.named "+" [.var "x", .int 1]) :=
    .binary (by decide) (by decide) (hvar "x" (by decide)) (.int (n := 1) (by decide))
  have hfield : Operation (.call (.named "." [.named "not" [.named "+" [.var "x", .int 1]],
      .atom "a"]) ⟨none, some true⟩ []) :=
    .field (by decide) (.unary (by decide) hsum)
  have hdifference : Operation (.named "-" [.var "z", .int 2]) :=
    .binary (by decide) (by decide) (hvar "z" (by decide)) (.int (n := 2) (by decide))
  exact parse_toSource_of_operation (.access hfield
    (.binary (by decide) (by decide) (hvar "y" (by decide)) hdifference))

end EmbeddedTemplate.Code
