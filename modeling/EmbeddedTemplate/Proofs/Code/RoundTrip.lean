import EmbeddedTemplate.Proofs.Code.Blockless
import EmbeddedTemplate.Proofs.Code.Blocks
import EmbeddedTemplate.Proofs.Code.Determinism
import EmbeddedTemplate.Proofs.Code.Parsing
import EmbeddedTemplate.Proofs.Code.Readings
import Mathlib

namespace EmbeddedTemplate.Code

open Printer
open EmbeddedTemplate.Tree
open scoped Computability

variable {t u : Tree} {ts items args patterns : List Tree} {k : Nat} {name text : String}

inductive Role
  | expression
  | body
  | part
  | clause
deriving DecidableEq, Repr

def Labelled (items : List Tree) : Prop :=
  isKeywords items → ∀ key value, .pair (.atom key) value ∈ items → IsToken .key (key ++ ":")

/--
Trees of which the text says what they are. Left out are sequences of several expressions, an
operator `<-` directly on the left of another one, a sign in front of the same sign, numbers whose
text is not a literal, entries whose key can only be written as an atom, and calls of a name that
the printer takes for a form of its own.
-/
inductive Legible : Role → Tree → Prop
  | nil : Legible .expression .nil
  | bool (b : Bool) : Legible .expression (.bool b)
  | int {n : Nat} : Binary64.digitCount n ≤ maxDigits → Legible .expression (.int n)
  | float {x : Binary64} : IsToken .float x.text → x.InFormat → Legible .expression (.float x)
  | str (s : String) : Legible .expression (.str s)
  | atom {name : String} : IsToken .atom (":" ++ name) → Legible .expression (.atom name)
  | var {name : String} {line : Option Int} : IsToken .name name →
      Legible .expression (.var name ⟨line, none⟩)
  | modulePath {text : String} {parts : List String} {line : Option Int} :
      IsToken .modulePath text → text.splitOn "." = parts → ".".intercalate parts = text →
      Legible .expression (.moduleName parts ⟨line, none⟩)
  | assign {name : String} {line line' : Option Int} : IsToken .name name →
      Legible .expression (.named "@" [.var name ⟨line, none⟩] ⟨line', none⟩)
  | pair {t u : Tree} : Legible .expression t → Legible .expression u →
      Legible .expression (.pair t u)
  | list {items : List Tree} : (∀ t ∈ items, Legible .expression t) → Labelled items →
      Legible .expression (.list items)
  | tuple {items : List Tree} {line : Option Int} :
      (∀ t ∈ items, Legible .expression t) → Labelled items → items.length ≠ 2 →
      Legible .expression (.named "\x7b\x7d" items ⟨line, none⟩)
  | unary {name : String} {t : Tree} {line : Option Int} :
      isUnaryName name → Legible .expression t → ¬Joined name t →
      Legible .expression (.named name [t] ⟨line, none⟩)
  | binary {name : String} {k : Nat} {t u : Tree} {line : Option Int} :
      binaryTier? name = some k → Legible .expression t → Legible .expression u →
      (k = 0 → ownTier t ≠ 0) →
      Legible .expression (.named name [t, u] ⟨line, none⟩)
  | call {name : String} {args : List Tree} {line : Option Int} :
      IsToken .name name → name ≠ "__block__" → name ≠ "__aliases__" →
      (∀ t ∈ args, Legible .expression t) → args.getLast?.any isSections = false →
      Legible .expression (.named name args ⟨line, none⟩)
  | block {name : String} {args : List Tree} {body : Tree} {items : List Tree}
      {line : Option Int} : IsToken .name name → name ≠ "__block__" → name ≠ "__aliases__" →
      (∀ t ∈ args, Legible .expression t) → Legible .body body →
      (∀ t ∈ items, Legible .part t) →
      Legible .expression
        (.named name (args ++ [.list (.pair (.atom "do") body :: items)]) ⟨line, none⟩)
  | remoteCall {t : Tree} {name : String} {args : List Tree} {line line' : Option Int} :
      IsToken .name name → Legible .expression t →
      (isAccess t (.atom name) && decide (args.length = 2)) = false →
      (∀ t ∈ args, Legible .expression t) →
      Legible .expression (.call (.named "." [t, .atom name] ⟨line, none⟩) ⟨line', none⟩ args)
  | field {t : Tree} {name : String} {line line' : Option Int} :
      IsToken .name name → Legible .expression t →
      Legible .expression (.call (.named "." [t, .atom name] ⟨line, none⟩) ⟨line', some true⟩ [])
  | access {t u : Tree} {line line' line'' : Option Int} :
      Legible .expression t → Legible .expression u →
      Legible .expression (.call (.named "." [.moduleName ["Access"] ⟨line, none⟩, .atom "get"]
        ⟨line', none⟩) ⟨line'', none⟩ [t, u])
  | body {t : Tree} : Legible .expression t → Legible .body t
  | clauses {items : List Tree} : items ≠ [] → (∀ t ∈ items, Legible .clause t) →
      Legible .body (.list items)
  | clause {patterns : List Tree} {body : Tree} {line : Option Int} : patterns ≠ [] →
      (∀ t ∈ patterns, Legible .expression t) → Legible .expression body →
      Legible .clause (.named "->" [.list patterns, body] ⟨line, none⟩)
  | part {w : Word} {body : Tree} : w.opensSection → Legible .body body →
      Legible .part (.pair (.atom w.text) body)

structure WrittenItem [CharacterNames] (t : Tree) : Prop where
  written : Written t
  value : ∀ key value, t = .pair (.atom key) value → Written value
  keyed : ∀ items, t = .list items → isKeywords items → Keyed items
  notClause : isClause t = false

theorem WrittenItem.of_call [CharacterNames] {target : Tree} {note : Annotation}
    (h : Written (.call target note args)) (hc : isClause (.call target note args) = false) :
    WrittenItem (.call target note args) := ⟨h, nofun, nofun, hc⟩

def Role.Written [CharacterNames] : Role → Tree → Prop
  | .expression, t => WrittenItem t
  | .body, t => WrittenBody .body t
  | .part, t => WrittenPart t
  | .clause, t => WrittenClause t

theorem keyed_of_items [CharacterNames] (h : ∀ t ∈ items, WrittenItem t) (hl : Labelled items)
    (hk : isKeywords items) : Keyed items := by
  intro t ht
  have hentry : isEntry t := by
    rw [isKeywords, Bool.and_eq_true, List.all_eq_true] at hk
    exact hk.2 t ht
  unfold isEntry at hentry
  split at hentry
  · next key value =>
    exact ⟨key, value, rfl, hl hk key value ht, (h _ ht).value key value rfl⟩
  · cases hentry

theorem isClauses_eq_false [CharacterNames] (h : ∀ t ∈ items, WrittenItem t) :
    isClauses items = false := by
  cases items with
  | nil => rfl
  | cons t items => simp [isClauses, (h t (List.mem_cons_self ..)).notClause]

theorem isClause_named (h : name ≠ "->") {note : Annotation} :
    isClause (.named name args note) = false := decide_eq_false h

theorem written_of_legible [CharacterNames] {role : Role} (h : Legible role t) :
    role.Written t := by
  induction h with
  | nil => exact ⟨written_nil, nofun, nofun, rfl⟩
  | bool b => exact ⟨written_bool b, nofun, nofun, rfl⟩
  | int h => exact ⟨written_int h, nofun, nofun, rfl⟩
  | float h hf => exact ⟨written_float h hf, nofun, nofun, rfl⟩
  | str s => exact ⟨written_str s, nofun, nofun, rfl⟩
  | atom h => exact ⟨written_atom h, nofun, nofun, rfl⟩
  | @var name line h =>
    refine ⟨written_var h, nofun, nofun, decide_eq_false ?_⟩
    rintro rfl
    revert h
    decide
  | modulePath h hs hi =>
    exact .of_call (written_path h hs hi) (isClause_named (by decide))
  | assign h => exact .of_call (written_assign h) (isClause_named (by decide))
  | pair _ _ iht ihu =>
    refine ⟨written_pair iht.written ihu.written, ?_, nofun, rfl⟩
    rintro key value ⟨⟩
    exact ihu.written
  | list _ hl ih =>
    refine ⟨written_list (fun t ht => (ih t ht).written) (keyed_of_items ih hl)
      (isClauses_eq_false ih), nofun, ?_, rfl⟩
    rintro items ⟨⟩
    exact keyed_of_items ih hl
  | tuple _ hl hlen ih =>
    exact .of_call (written_tuple (fun t ht => (ih t ht).written) (keyed_of_items ih hl) hlen)
      (isClause_named (by decide))
  | unary hu _ hj ih =>
    refine .of_call (written_unary hu ih.written hj) (isClause_named ?_)
    rintro rfl
    revert hu
    decide
  | binary hb _ _ hk iht ihu =>
    refine .of_call (written_binary hb iht.written ihu.written hk) (isClause_named ?_)
    rintro rfl
    cases hb
  | call hname hb ha _ hs ih =>
    refine .of_call (written_call hname hb ha hs (fun t ht => (ih t ht).written)
      fun items hm => (ih _ hm).keyed items rfl) (isClause_named ?_)
    rintro rfl
    revert hname
    decide
  | block hname hb ha _ _ _ ihargs ihbody ihitems =>
    refine .of_call (written_block hname hb ha (fun t ht => (ihargs t ht).written)
      (fun items hm => (ihargs _ hm).keyed items rfl) ihbody ihitems) (isClause_named ?_)
    rintro rfl
    revert hname
    decide
  | remoteCall hname _ ha _ iht ihargs =>
    exact .of_call (written_remoteCall hname iht.written ha (fun t ht => (ihargs t ht).written)
      fun items hm => (ihargs _ hm).keyed items rfl) rfl
  | field hname _ ih => exact .of_call (written_field hname ih.written) rfl
  | access _ _ iht ihu => exact .of_call (written_access iht.written ihu.written) rfl
  | body _ ih => exact ih.written.asBody
  | clauses hne _ ih => exact writtenBody_clauses hne ih
  | clause hne _ _ ihpatterns ihbody =>
    exact written_clause hne (fun t ht => (ihpatterns t ht).written) ihbody.written
  | part hw _ ih => exact ⟨_, _, hw, rfl, ih⟩

theorem exists_reading [CharacterNames] (h : Legible .expression t) :
    ∃ source p u, toSource t = .ok source ∧
    (Lexed.ofCode source 1).rejected = none ∧
    Derives .program (Lexed.ofCode source 1).tokens [p] ∧ p.toTree = .ok u ∧
      u.unlined = t.unlined := by
  obtain ⟨text, hw⟩ := (written_of_legible h).written
  have hprint := hw.print .body (Nat.zero_le _)
  rw [fit, if_neg (show ¬ownTier t < Place.tier .body from Nat.not_lt_zero _)] at hprint
  have hs := hw.spelled.mono (runsOf_ofTier_le (Nat.zero_le _))
  rw [ofTier_of_le (Nat.zero_le _)] at hs
  obtain ⟨run, ⟨p, u, hd, hp, hu⟩, hrun⟩ := hs.mono program_le 0 1 [] trivial
  rw [shift_zero, List.append_nil, Lexed.tokensAt?_nil, Option.map_some, List.append_nil,
    ← tokensAt?_of_tokens?] at hrun
  unfold tokens? at hrun
  dsimp only at hrun
  split at hrun
  · next hr =>
    obtain rfl := Option.some.inj hrun
    exact ⟨text, p, u, hprint, Option.isNone_iff_eq_none.1 hr, hd, hp, hu⟩
  · cases hrun

/-- Code is read as a program in one way at most. -/
def OneReading (code : String) : Prop := ∀ p q, Derives .program (Lexed.ofCode code 1).tokens [p] →
  Derives .program (Lexed.ofCode code 1).tokens [q] → p = q

theorem oneReading_of_readings {code : String} (h : (readings
    (rounds .program (Lexed.ofCode code 1).tokens + 1) .program
    (Lexed.ofCode code 1).tokens).length ≤ 1) : OneReading code :=
  fun _ _ hp hq => List.singleton_inj.1 (hp.eq_of_readings h hq)

/--
Parsing undoes printing, but for lines, on every legible tree whose text has one reading; that of a
tree without blocks has.
-/
theorem parse_toSource [CharacterNames] (h : Legible .expression t)
    (hone : Blockless t ∨ ∀ source, toSource t = .ok source → OneReading source) :
    ∃ source u, toSource t = .ok source ∧ parse source 1 = .ok u ∧ u.unlined = t.unlined := by
  obtain ⟨source, p, u, hsource, hr, hd, hp, hu⟩ := exists_reading h
  obtain ⟨q, hq, hparse⟩ := parse_of_derives hr ⟨_, hd⟩
  have hpq : p = q := by
    obtain hblockless | hone := hone
    · have hdo : ∀ t ∈ (Lexed.ofCode source 1).tokens, t.terminal ≠ .word .doWord := by
        intro t ht hword
        have hblock := hd.haveBlock (fun t ht => Lexed.spelled_of_mem_tokens ht) ⟨t, ht, hword⟩
          (toTrees_singleton hp)
        exact not_haveBlock_of_unlined hblockless hu hblock
      exact List.singleton_inj.1 (hd.program_unique hq hdo)
    · exact hone source hsource p q hd hq
  refine ⟨source, u, hsource, ?_, hu⟩
  rw [hparse, ← hpq, hp]
  rfl

def matchExample : Tree :=
  .named "=" [.var "x", .named "f" [.int 1, .list [.pair (.atom "k") (.named "-" [.var "y"])]]]

def clausesExample : List Tree :=
  [.named "->" [.list [.int 1], .var "a"], .named "->" [.list [.atom "b"], .named "f" [.int 2]]]

def blockExample : Tree :=
  .named "if" [.var "x", .list [.pair (.atom "do") (.float (.finite false (3 * 2 ^ 51) (-52))),
    .pair (.atom "else")
      (.named "case" [.var "y", .list [.pair (.atom "do") (.list clausesExample)]])]]

def blockText : String :=
  "if x do\n  1.5\nelse\n  case y do\n    1 ->\n      a\n    :b ->\n      f(2)\n  end\nend"

theorem legible_matchExample : Legible .expression matchExample := by
  have hkeywords : Legible .expression (.list [.pair (.atom "k") (.named "-" [.var "y"])]) := by
    refine .list (List.forall_mem_singleton.2 ?_) ?_
    · refine .pair (.atom (by decide)) (.unary (by decide) (.var (by decide)) ?_)
      rintro ⟨-, note, u, h⟩
      cases h
    · rintro - key value hm
      cases List.mem_singleton.1 hm
      decide
  have hcall : Legible .expression
      (.named "f" [.int 1, .list [.pair (.atom "k") (.named "-" [.var "y"])]]) :=
    .call (by decide) (by decide) (by decide)
      (List.forall_mem_cons.2 ⟨.int (by decide), List.forall_mem_singleton.2 hkeywords⟩) (by decide)
  exact .binary (k := 1) (by decide) (.var (by decide)) hcall nofun

theorem legible_blockExample : Legible .expression blockExample := by
  have hcall : Legible .expression (.named "f" [.int 2]) :=
    .call (by decide) (by decide) (by decide) (List.forall_mem_singleton.2 (.int (by decide)))
      (by decide)
  have hclauses : ∀ t ∈ clausesExample, Legible .clause t := List.forall_mem_cons.2
    ⟨.clause nofun (List.forall_mem_singleton.2 (.int (by decide))) (.var (by decide)),
      List.forall_mem_singleton.2
        (.clause nofun (List.forall_mem_singleton.2 (.atom (by decide))) hcall)⟩
  have hinner : Legible .expression
      (.named "case" ([.var "y"] ++ [.list [.pair (.atom "do") (.list clausesExample)]])) :=
    .block (by decide) (by decide) (by decide) (List.forall_mem_singleton.2 (.var (by decide)))
      (.clauses nofun hclauses) nofun
  have hfloat : Legible .expression (.float (.finite false (3 * 2 ^ 51) (-52))) :=
    .float (by decide +kernel) (by decide)
  change Legible .expression (.named "if" ([.var "x"] ++ [.list (.pair (.atom "do") _ :: _)]))
  exact .block (by decide) (by decide) (by decide) (List.forall_mem_singleton.2 (.var (by decide)))
    (.body hfloat) (List.forall_mem_singleton.2 (.part (w := .elseWord) rfl (.body hinner)))

theorem toSource_blockExample : toSource blockExample = .ok blockText := by decide +kernel

theorem oneReading_blockText : OneReading blockText := oneReading_of_readings (by decide +kernel)

theorem parse_toSource_match :
    (∃ source u, toSource matchExample = .ok source ∧ parse source 1 = .ok u ∧
      u.unlined = matchExample.unlined) ∧
    ∃ source u, toSource blockExample = .ok source ∧ parse source 1 = .ok u ∧
      u.unlined = blockExample.unlined := by
  have hblocks : Blockless matchExample := by
    simp only [Blockless]
    decide
  refine ⟨parse_toSource legible_matchExample (.inl hblocks),
    parse_toSource legible_blockExample (.inr fun source h => ?_)⟩
  obtain rfl := Except.ok.inj (toSource_blockExample.symm.trans h)
  exact oneReading_blockText

/-- Signs are printed without a blank behind them, so two equal signs become another operator. -/
theorem not_parse_toSource_of_signs : ∃ t, parse "- -x" 1 = .ok t ∧ toSource t = .ok "--x" ∧
    parse "--x" 1 = .error ⟨.before "--", 1⟩ := by
  refine ⟨.named "-" [.named "-" [.var "x" ⟨some 1, none⟩] ⟨some 1, none⟩] ⟨some 1, none⟩,
    ?_, ?_, ?_⟩
  · cbv
  · cbv
  · cbv

end EmbeddedTemplate.Code
