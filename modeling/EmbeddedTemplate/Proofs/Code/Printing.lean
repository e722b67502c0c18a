import EmbeddedTemplate.Proofs.Code.Quoting
import EmbeddedTemplate.Proofs.Code.Rereading
import EmbeddedTemplate.Proofs.Number.Decimal

/-!
How a tree is printed: what each form is made of, and that its text is a run that is read as the
tree, if the texts of its parts are. What a part has to look like depends on the place it is in.
-/

namespace EmbeddedTemplate.Code

open Printer
open EmbeddedTemplate.Tree
open scoped Computability

variable {t u : Tree} {ts us items args : List Tree} {c : Category} {k : Nat} {line : Option Int}
variable {L M : Language Token} {F G : List Char → Prop} {x : Terminal} {s name text : String}
variable {cs ds rest : List Char} {note : Annotation} {place : Place} {left right : String}

theorem stops_cons {q : Char} (h : q ∈ [' ', '\n', ',', ';', '(', ')', '[', ']', '\x7d'])
    (n : Nat) : Stops (shift n (q :: cs) ++ rest) := by
  rw [shift, List.flatMap_cons]
  split
  · exact .inl (by decide)
  · exact .inl h

theorem Spelled.blank (h : Spelled F cs L) : Spelled F (' ' :: cs) L := by
  have hb : Spelled (fun _ => True) [' '] 1 :=
    spelled_blanks (List.forall_mem_singleton.2 rfl)
  simpa using hb.append h fun _ _ _ => trivial

theorem Spelled.lineBreak (h : Spelled F cs L) : Spelled F ('\n' :: cs) L := by
  have hb : Spelled (fun _ => True) ['\n'] 1 :=
    spelled_blanks (List.forall_mem_singleton.2 rfl)
  simpa using hb.append h fun _ _ _ => trivial

theorem Spelled.indent (h : Spelled F text.toList L) : Spelled F (indent text).toList L := by
  intro n line rest hr
  obtain ⟨ts, hts, h⟩ := h.blank.blank (n + 2) line rest hr
  have : shift n (Printer.indent text).toList = shift (n + 2) (' ' :: ' ' :: text.toList) := by
    rw [shift_indent]
    rfl
  exact ⟨ts, hts, by rw [this, h]⟩

theorem Spelled.stopped {q : Char} (hl : Spelled Stops cs L) (hr : Spelled F (q :: ds) M)
    (hq : q ∈ [' ', '\n', ',', ';', '(', ')', '[', ']', '\x7d']) :
    Spelled F (cs ++ q :: ds) (L * M) :=
  hl.append hr fun n _ _ => stops_cons hq n

theorem Spelled.mark {m : Sign} (hm : m.isMark) (h : Spelled F cs L) :
    Spelled F (m.chars ++ cs) (spelt (.sign m) m.text * L) :=
  (spelled_mark (F := fun _ => True) hm).append h fun _ _ _ => trivial

theorem Spelled.enclosed {o e : Sign} {q : Char} (ho : o.isMark) (he : e.isMark)
    (hq : e.chars = [q]) (hs : q ∈ [')', ']', '\x7d']) (h : Spelled Stops cs L) :
    Spelled F (o.chars ++ (cs ++ e.chars))
      (spelt (.sign o) o.text * L * spelt (.sign e) e.text) := by
  have hclosing : Spelled F e.chars (spelt (.sign e) e.text) := spelled_mark he
  rw [hq] at hclosing ⊢
  have hstop : q ∈ [' ', '\n', ',', ';', '(', ')', '[', ']', '\x7d'] := by
    fin_cases hs <;> decide
  rw [mul_assoc]
  exact Spelled.mark ho (h.stopped hclosing hstop)

def ownTier : Tree → Nat
  | .call (.str name) _ [_, _] => (binaryTier? name).getD tightTier
  | .call (.str name) _ [_] => if isUnaryName name then unaryTier else tightTier
  | _ => tightTier

def Category.ofTier (k : Nat) : Category := if k ≤ unaryTier then .tier k else .operand

theorem runsOf_ofTier_le [CharacterNames] {i : Nat} (hi : i ≤ k) :
    runsOf (.ofTier k) t ≤ runsOf (.ofTier i) t := by
  unfold Category.ofTier
  split_ifs with h₁ h₂ h₃
  · exact runsOf_tier_le hi h₁
  · exact absurd (hi.trans h₁) h₂
  · exact runsOf_operand_le h₃
  · exact le_rfl

/-- A plus or minus in front of the tree and the one that the tree starts with are another sign. -/
def Joined (name : String) (t : Tree) : Prop :=
  name ∈ ["-", "+"] ∧ ∃ note u, t = .call (.str name) note [u]

/--
The tree is printed as the text, but for parentheses that its place demands, and the text is read as
the tree. If it may follow an operator, it leaves the operator what it is.
-/
structure Wrote [CharacterNames] (t : Tree) (text : String) : Prop where
  print : ∀ place, Place.tier place ≤ tightTier → print place t = .ok (fit place (ownTier t) text)
  spelled : Spelled Stops text.toList (runsOf (.ofTier (ownTier t)) t)
  head : unaryTier ≤ ownTier t → ∃ d ∈ text.toList.head?, ∀ s : Sign, s.joins d →
    Joined s.text t

def Written [CharacterNames] (t : Tree) : Prop := ∃ text, Wrote t text

namespace Wrote

theorem operand [CharacterNames] (h : Wrote t text) (hk : k ≤ tightTier) :
    Printer.print (.operand k) t = .ok (fit (.operand k) (ownTier t) text) ∧
      Spelled Stops (fit (.operand k) (ownTier t) text).toList (runsOf (.ofTier k) t) := by
  refine ⟨h.print _ hk, ?_⟩
  unfold fit
  split_ifs with hlt
  · have hinner : Spelled Stops text.toList (runsOf (.tier 0) t) :=
      h.spelled.mono (runsOf_ofTier_le (Nat.zero_le _))
    have hparens : Spelled Stops ('(' :: (text.toList ++ [')'])) _ :=
      hinner.enclosed (o := .leftParen) (e := .rightParen) rfl rfl rfl (by decide)
    have hprimary : runsOf .primary t ≤ runsOf (.ofTier k) t :=
      runsOf_primary_le.trans (runsOf_ofTier_le (k := tightTier) hk)
    simpa using hparens.mono (parens_le.trans hprimary)
  · exact h.spelled.mono (runsOf_ofTier_le (Nat.not_lt.1 hlt))

end Wrote

def Apart (cs : List Char) : Prop := ∃ d ∈ cs.head?, ∀ s : Sign, s.joins d = false

theorem joins_eq_false {d : Char} (h : d ∉ ['-', '>', '+', '=']) (s : Sign) :
    s.joins d = false := by
  cases s <;> simp_all [Sign.joins]

theorem apart_cons {d : Char} (h : d ∉ ['-', '>', '+', '=']) (cs : List Char) : Apart (d :: cs) :=
  ⟨d, rfl, joins_eq_false h⟩

theorem Apart.append (h : Apart cs) (ds : List Char) : Apart (cs ++ ds) := by
  obtain ⟨d, hd, h⟩ := h
  refine ⟨d, ?_, h⟩
  rw [List.head?_append, Option.mem_def.1 hd]
  rfl

theorem IsToken.apart (h : IsToken x s) (hx : ∀ m, x ≠ .sign m) : Apart s.toList := by
  obtain ⟨c, cs, k, hs, hf, ht⟩ := h.exists_first?
  rw [hs]
  refine apart_cons (fun hc => ?_) cs
  have hstart : c.isDigit = false ∧ isNameStart c = false ∧ c.isUpper = false ∧ c ≠ ':' ∧
      c ≠ '"' ∧ isCodeBlank c = false ∧ c ≠ '#' := by
    fin_cases hc <;> decide
  obtain ⟨hd, hn, hu, ha, hq, hb, hh⟩ := hstart
  rw [Lexeme.first?_sign hd hn hu ha hq hb hh] at hf
  obtain ⟨m, -, hm⟩ := Option.map_eq_some_iff.1 hf
  simp only [Prod.mk.injEq, LexemeKind.terminal.injEq] at hm
  obtain ⟨rfl, -⟩ := hm
  have := ht 1
  simp only [Lexeme.token?, Option.some.injEq, Token.mk.injEq] at this
  exact hx m this.1.symm

theorem ownTier_unary (h : isUnaryName name) :
    ownTier (.call (.str name) note [t]) = unaryTier := if_pos h

theorem ownTier_binary (h : binaryTier? name = some k) :
    ownTier (.call (.str name) note [t, u]) = k := by
  rw [ownTier, h, Option.getD_some]

theorem ownTier_named (hb : binaryTier? name = none) (hu : isUnaryName name = false) :
    ownTier (.named name args note) = tightTier := by
  unfold ownTier
  split
  · next h =>
    cases h
    rw [hb]
    rfl
  · next h =>
    cases h
    rw [hu]
    rfl
  · rfl

namespace Wrote

protected theorem of_tight [CharacterNames] (ht : ownTier t = tightTier)
    (hp : ∀ place, Place.tier place ≤ tightTier → Printer.print place t = .ok text)
    (hs : Spelled Stops text.toList (runsOf .operand t)) (ha : Apart text.toList) :
    Wrote t text where
  print place hplace := by rw [hp place hplace, ht, fit, if_neg (Nat.not_lt.2 hplace)]
  spelled := by rwa [ht]
  head _ := by
    obtain ⟨d, hd, hapart⟩ := ha
    refine ⟨d, hd, fun s hs => ?_⟩
    rw [hapart s] at hs
    cases hs

protected theorem of_token [CharacterNames] (hx : IsToken x text) (hstring : x ≠ .string)
    (hsign : ∀ m, x ≠ .sign m) (ht : ownTier t = tightTier)
    (hp : ∀ place, Place.tier place ≤ tightTier → Printer.print place t = .ok text)
    (hle : spelt x text ≤ runsOf .primary t) : Wrote t text :=
  .of_tight ht hp ((hx.spelled hstring).mono (hle.trans runsOf_primary_le)) (hx.apart hsign)

theorem exists_head [CharacterNames] (h : Wrote t text) (hk : unaryTier ≤ k) :
    ∃ d ∈ (fit (.operand k) (ownTier t) text).toList.head?, ∀ s : Sign, s.joins d →
      k = unaryTier ∧ Joined s.text t := by
  unfold fit
  split_ifs with hlt
  · refine ⟨'(', by simp, fun s hs => ?_⟩
    rw [joins_eq_false (by decide)] at hs
    cases hs
  · obtain ⟨d, hd, hjoin⟩ := h.head (hk.trans (Nat.not_lt.1 hlt))
    refine ⟨d, hd, fun s hs => ?_⟩
    obtain ⟨hname, note, u, rfl⟩ := hjoin s hs
    have hunary : isUnaryName s.text := by
      generalize s.text = name at hname
      fin_cases hname <;> decide
    rw [ownTier_unary hunary] at hlt
    exact ⟨le_antisymm (Nat.not_lt.1 hlt) hk, hname, note, u, rfl⟩

theorem apart [CharacterNames] (h : Wrote t text) :
    Apart (fit (.operand tightTier) (ownTier t) text).toList := by
  obtain ⟨d, hd, hjoin⟩ := h.exists_head (k := tightTier) (by decide)
  refine ⟨d, hd, fun s => ?_⟩
  by_contra hs
  exact absurd (hjoin s (by simpa using hs)).1 (by decide)

end Wrote

section Literals

attribute [local simp] print pure Except.pure

theorem written_nil [CharacterNames] : Written .nil :=
  ⟨"nil", .of_token (isToken_word .nilWord) nofun nofun rfl (fun _ _ => rfl)
    (spelt_le_literal rfl fun _ => rfl)⟩

theorem written_bool [CharacterNames] (b : Bool) : Written (.bool b) := by
  cases b with
  | false => exact ⟨"false", .of_token (isToken_word .falseWord) nofun nofun rfl (fun _ _ => rfl)
      (spelt_le_literal rfl fun _ => rfl)⟩
  | true => exact ⟨"true", .of_token (isToken_word .trueWord) nofun nofun rfl (fun _ _ => rfl)
      (spelt_le_literal rfl fun _ => rfl)⟩

theorem IsToken.exists_digit (h : IsToken .float text) :
    ∃ c cs, text.toList = c :: cs ∧ c.isDigit := by
  obtain ⟨c, cs, k, hs, hf, ht⟩ := h.exists_first?
  have hk : k = .float := by
    have ht := ht 0
    unfold Lexeme.token? at ht
    split at ht
    · cases hw : Word.ofText? text <;> simp [hw] at ht
    · next hk =>
      cases hk
      cases ht
      rfl
    · cases ht
  obtain rfl := hk
  refine ⟨c, cs, hs, ?_⟩
  cases Lexeme.starts_of_first? hf with
  | float hm =>
    unfold Lexeme.float? at hm
    dsimp only at hm
    split at hm
    · next hc _ => exact hc
    · cases hm

/-- Numbers of the format whose text is a token are read back; that text has no sign. -/
theorem value_float [CharacterNames] {x : Binary64} (hx : IsToken .float x.text)
    (hf : x.InFormat) (line : Int) : Literal.value ⟨.float, x.text, line⟩ = .ok (.float x) := by
  cases x with
  | nan => exact absurd hx (by decide)
  | infinite negative => cases negative <;> exact absurd hx (by decide)
  | finite negative m e =>
    cases negative with
    | true =>
      obtain ⟨c, cs, hs, hc⟩ := hx.exists_digit
      rw [Binary64.text, String.toList_ofList] at hs
      cases hs
      cases hc
    | false =>
      have hplain : (Binary64.finite false m e).text.toList.filter (· ≠ '_') =
          (Binary64.finite false m e).text.toList :=
        List.filter_eq_self.2 fun c hc => decide_eq_true fun h => by
          have := Binary64.isFigure_of_mem_text hc
          rw [h] at this
          cases this
      simp only [Literal.value, hplain, Binary64.readDecimal_text hf, Option.getD_some]

theorem written_float [CharacterNames] {x : Binary64} (hx : IsToken .float x.text)
    (hf : x.InFormat) : Written (.float x) :=
  ⟨x.text, .of_token hx nofun nofun rfl (fun _ _ => by simp)
    (spelt_le_literal rfl (value_float hx hf))⟩

theorem written_str [CharacterNames] (s : String) : Written (.str s) := by
  have hle : spelt .string (Text.literal s) ≤ runsOf .operand (.str s) :=
    (spelt_le_literal rfl (value_literal s)).trans runsOf_primary_le
  refine ⟨Text.literal s, .of_tight rfl (fun _ _ => by simp) ((spelled_literal s).mono hle) ?_⟩
  rw [Text.literal, String.toList_ofList]
  exact apart_cons (by decide) _

theorem written_atom [CharacterNames] (h : IsToken .atom (":" ++ name)) : Written (.atom name) := by
  have hv (line : Int) : Literal.value ⟨.atom, ":" ++ name, line⟩ = .ok (.atom name) := by
    simp [Literal.value]
  exact ⟨_, .of_token h nofun nofun rfl (fun _ _ => by simp) (spelt_le_literal rfl hv)⟩

theorem written_var [CharacterNames] (h : IsToken .name name) : Written (.var name ⟨line, none⟩) :=
  ⟨name, .of_token h nofun nofun rfl (fun _ _ => by simp [Tree.var]) spelt_le_var⟩

theorem written_int [CharacterNames] {n : Nat} (h : Binary64.digitCount n ≤ maxDigits) :
    Written (.int n) := by
  have htext : intText n = .ok (String.ofList (Nat.toDigits 10 n)) := by
    rw [intText, if_neg (by simpa using h)]
    rfl
  have hv (line : Int) :
      Literal.value ⟨.int, String.ofList (Nat.toDigits 10 n), line⟩ = .ok (.int n) := by
    simp only [Literal.value, String.toList_ofList, filter_toDigits, Literal.intValue]
    rw [if_neg (by simpa [Binary64.digitCount] using h), Binary64.natOfDigits_toDigits]
    rfl
  exact ⟨_, .of_token (isToken_digits n) (by simp) (by simp) rfl (fun _ _ => by simp [htext])
    (spelt_le_literal rfl hv)⟩

theorem print_path (parts : List String) :
    print place (.moduleName parts note) = .ok (".".intercalate parts) := by
  have hparts : (parts.map Tree.atom).mapM nameOf = .ok parts := by
    induction parts with
    | nil => rfl
    | cons part parts ih =>
      rw [List.map_cons, List.mapM_cons, ih]
      rfl
  rw [Tree.moduleName, Tree.named, print]
  simp [hparts]

theorem written_path [CharacterNames] {parts : List String} (h : IsToken .modulePath text)
    (hparts : text.splitOn "." = parts) (htext : ".".intercalate parts = text) :
    Written (.moduleName parts ⟨line, none⟩) :=
  ⟨text, .of_token h nofun nofun (ownTier_named (by decide) (by decide))
    (fun _ _ => by rw [print_path, htext]) (spelt_le_path hparts)⟩

end Literals

theorem print_assign (ht : print (.operand tightTier) t = .ok text) :
    print place (.named "@" [t] note) = .ok ("@" ++ text) := by
  rw [Tree.named, print]
  simp [operand, ht]

theorem written_assign [CharacterNames] {line' : Option Int} (h : IsToken .name name) :
    Written (.named "@" [.var name ⟨line', none⟩] ⟨line, none⟩) := by
  have hmark : Spelled Stops (Sign.atSign.chars ++ name.toList) _ :=
    Spelled.mark (m := .atSign) rfl (h.spelled nofun)
  refine ⟨"@" ++ name, .of_tight (ownTier_named (by decide) (by decide))
    (fun _ _ => print_assign (by rw [Tree.var, print]; rfl)) ?_ ?_⟩
  · simpa [Sign.chars] using hmark.mono (spelt_le_assign.trans runsOf_primary_le)
  · rw [String.toList_append]
    exact (apart_cons (by decide) []).append _

theorem print_unary (h : isUnaryName name) (ht : print (.operand unaryTier) t = .ok text) :
    print place (.named name [t] note) =
      .ok (fit place unaryTier (name ++ (if name = "not" then " " else "") ++ text)) := by
  have hne : name ∉ ["__block__", "__aliases__", "\x7b\x7d", "->", "@"] := by
    intro hm
    fin_cases hm <;> revert h <;> decide
  simp only [List.mem_cons, List.not_mem_nil, or_false, not_or] at hne
  obtain ⟨h₁, h₂, h₃, h₄, h₅⟩ := hne
  rw [Tree.named, print]
  simp [h₁, h₂, h₃, h₄, h₅, h, operand, ht]

theorem print_binary (h : binaryTier? name = some k)
    (hl : print (.operand (operandTiers k).1) t = .ok left)
    (hr : print (.operand (operandTiers k).2) u = .ok right) :
    print place (.named name [t, u] note) =
      .ok (fit place k (left ++ " " ++ name ++ " " ++ right)) := by
  have hne : name ∉ ["__block__", "__aliases__", "\x7b\x7d", "->"] := by
    intro hm
    have : binaryTier? name = none := by fin_cases hm <;> decide
    rw [h] at this
    cases this
  simp only [List.mem_cons, List.not_mem_nil, or_false, not_or] at hne
  obtain ⟨h₁, h₂, h₃, h₄⟩ := hne
  rw [Tree.named, print]
  simp [h₁, h₂, h₃, h₄, h, operand, hl, hr]

theorem ofTier_of_le (h : k ≤ unaryTier) : Category.ofTier k = .tier k := if_pos h

theorem operandTiers_fst (h : assoc k ≠ .single) :
    (operandTiers k).1 = ((assoc k).tiers k).1 := by
  cases ha : assoc k <;> simp_all [operandTiers, Assoc.tiers]

theorem operandTiers_snd (k : Nat) : (operandTiers k).2 = ((assoc k).tiers k).2 := by
  cases ha : assoc k <;> simp_all [operandTiers, Assoc.tiers]

theorem operandTiers_le (h : k < unaryTier) :
    (operandTiers k).1 ≤ unaryTier ∧ (operandTiers k).2 ≤ unaryTier := by
  unfold operandTiers
  split <;> dsimp only <;> omega

/-- The left operand is read as one, but for an operator that is taken once only. -/
theorem Wrote.leftOperand [CharacterNames] (h : Wrote t text) (hk : k < unaryTier)
    (hsingle : k = 0 → ownTier t ≠ 0) :
    Spelled Stops (fit (.operand (operandTiers k).1) (ownTier t) text).toList
      (runsOf (.tier ((assoc k).tiers k).1) t) := by
  by_cases ha : assoc k = .single
  · obtain rfl : k = 0 := by
      unfold assoc at ha
      split at ha <;> first | rfl | cases ha
    have hpos : 0 < ownTier t := Nat.pos_of_ne_zero (hsingle rfl)
    rw [fit, if_neg (by simp [operandTiers, assoc, Place.tier])]
    have := h.spelled.mono (runsOf_ofTier_le (i := 1) hpos)
    rwa [ofTier_of_le (by decide)] at this
  · have hle := (operandTiers_le hk).1
    rw [← operandTiers_fst ha, ← ofTier_of_le hle]
    exact (h.operand (hle.trans (by decide))).2

theorem Wrote.rightOperand [CharacterNames] (h : Wrote t text) (hk : k < unaryTier) :
    Spelled Stops (fit (.operand (operandTiers k).2) (ownTier t) text).toList
      (runsOf (.tier ((assoc k).tiers k).2) t) := by
  have hle := (operandTiers_le hk).2
  rw [← operandTiers_snd, ← ofTier_of_le hle]
  exact (h.operand (hle.trans (by decide))).2

theorem IsToken.spelled_of_spelled? (h : spelled? name = some x) :
    Spelled Stops name.toList (spelt x name) := by
  obtain ⟨hx, htext⟩ := spelled?_eq_some h
  refine hx.spelled ?_
  rintro rfl
  cases htext

theorem written_binary [CharacterNames] (hb : binaryTier? name = some k) (ht : Written t)
    (hu : Written u)
    (hsingle : k = 0 → ownTier t ≠ 0) : Written (.named name [t, u] ⟨line, none⟩) := by
  obtain ⟨left, ht⟩ := ht
  obtain ⟨right, hu⟩ := hu
  obtain ⟨x, hx, hk⟩ := Option.bind_eq_some_iff.1 hb
  have htier := Terminal.tier?_lt hk
  have hown : ownTier (.named name [t, u] ⟨line, none⟩) = k := ownTier_binary hb
  have hplaces := operandTiers_le htier
  have hspelled := (ht.leftOperand htier hsingle).stopped ((IsToken.spelled_of_spelled? hx).stopped
    (hu.rightOperand htier).blank (by decide)).blank (by decide)
  rw [← mul_assoc] at hspelled
  refine ⟨fit (.operand (operandTiers k).1) (ownTier t) left ++ " " ++ name ++ " " ++
    fit (.operand (operandTiers k).2) (ownTier u) right, fun place _ => ?_, ?_, fun h => ?_⟩
  · rw [hown]
    exact print_binary hb (ht.print _ (hplaces.1.trans (by decide)))
      (hu.print _ (hplaces.2.trans (by decide)))
  · rw [hown, ofTier_of_le htier.le]
    simpa using hspelled.mono (binary_le hk)
  · rw [hown] at h
    exact absurd htier (Nat.not_lt.2 h)

theorem eq_not_or_isPrefix (h : isUnaryName name) :
    name = "not" ∨ ∃ s : Sign, s.isPrefix ∧ name = s.text := by
  unfold isUnaryName at h
  cases hx : spelled? name with
  | none =>
    rw [hx] at h
    cases h
  | some x =>
    rw [hx] at h
    have htext := (spelled?_eq_some hx).2
    cases x with
    | word w =>
      cases w <;> cases h
      cases htext
      exact .inl rfl
    | sign s =>
      cases htext
      exact .inr ⟨s, (by cases s <;> first | rfl | cases h), rfl⟩
    | _ => cases htext

theorem joined_of_joins {s m : Sign} (hm : m.isPrefix) {d : Char} (hd : d ∈ m.chars.head?)
    (h : s.joins d) : Joined s.text (.named m.text [t] note) := by
  cases m <;> cases hm <;> cases hd <;> cases s <;> cases h
  · exact ⟨by decide, _, _, rfl⟩
  · exact ⟨by decide, _, _, rfl⟩

theorem written_unary [CharacterNames] (h : isUnaryName name) (ht : Written t)
    (hj : ¬Joined name t) :
    Written (.named name [t] ⟨line, none⟩) := by
  obtain ⟨text, ht⟩ := ht
  have hown : ownTier (.named name [t] ⟨line, none⟩) = unaryTier := ownTier_unary h
  obtain ⟨hprint, hoperand⟩ := ht.operand (k := unaryTier) (by decide)
  rw [ofTier_of_le le_rfl] at hoperand
  obtain rfl | ⟨s, hs, rfl⟩ := eq_not_or_isPrefix h
  · have hword : Spelled Stops "not".toList (spelt (.word .notWord) "not") :=
      (isToken_word .notWord).spelled nofun
    have hspelled := hword.stopped hoperand.blank (by decide)
    refine ⟨"not" ++ " " ++ fit (.operand unaryTier) (ownTier t) text, fun place _ => ?_, ?_,
      fun _ => ⟨'n', by simp, fun s hs => ?_⟩⟩
    · rw [hown]
      exact print_unary h hprint
    · rw [hown, ofTier_of_le le_rfl]
      simpa using hspelled.mono (unary_le rfl)
    · rw [joins_eq_false (by decide)] at hs
      cases hs
  · obtain ⟨d, hd, hjoin⟩ := ht.exists_head le_rfl
    have hgap : (if s.text = "not" then " " else "") = "" := by
      cases s <;> rfl
    have hspelled : Spelled Stops (s.chars ++ (fit (.operand unaryTier) (ownTier t) text).toList)
        _ := (spelled_front hs).append hoperand ?_
    · refine ⟨s.text ++ fit (.operand unaryTier) (ownTier t) text, fun place _ => ?_, ?_,
        fun _ => ?_⟩
      · have : print place (.named s.text [t] ⟨line, none⟩) = _ := print_unary h hprint
        rw [hown, this, hgap, String.append_empty]
      · rw [hown, ofTier_of_le le_rfl, String.toList_append, Sign.text, String.toList_ofList]
        exact hspelled.mono (unary_le (by cases s <;> cases hs <;> rfl))
      · have hne : s.chars ≠ [] := by cases s <;> simp [Sign.chars]
        obtain ⟨c, cs, hcs⟩ := List.exists_cons_of_ne_nil hne
        refine ⟨c, by simp [Sign.text, hcs], fun m hm => ?_⟩
        exact joined_of_joins hs (by simp [hcs]) hm
    · intro n rest _ e he
      obtain rfl : d = e := by
        rw [List.head?_append, head?_shift, Option.mem_def.1 hd] at he
        exact Option.some.inj he
      by_contra hjoins
      exact hj (hjoin s (by simpa using hjoins)).2

def Listed (texts : Except Unprintable (List String)) (L : Language Token) : Prop :=
  ∃ l, texts = .ok l ∧ l ≠ [] ∧ Spelled Stops (commas l).toList L

theorem Listed.mono {texts : Except Unprintable (List String)} (h : Listed texts L) (hL : L ≤ M) :
    Listed texts M := by
  obtain ⟨l, hl, hne, hs⟩ := h
  exact ⟨l, hl, hne, hs.mono hL⟩

theorem commas_singleton (text : String) : commas [text] = text := String.intercalate_singleton

theorem spelled_commas {l : List String} (ht : Spelled Stops text.toList L)
    (hl : Spelled Stops (commas l).toList M) (hne : l ≠ []) :
    Spelled Stops (commas (text :: l)).toList (L * spelt (.sign .comma) "," * M) := by
  have hcomma : Spelled Stops (',' :: ' ' :: (commas l).toList) (spelt (.sign .comma) "," * M) :=
    Spelled.mark (m := .comma) rfl hl.blank
  rw [mul_assoc]
  have := ht.stopped hcomma (by decide)
  rw [commas, String.intercalate_cons_of_ne_nil hne, ← commas]
  simpa using this

theorem entries_false_cons {l : List String} (ht : print (.operand 0) t = .ok text)
    (hl : entries false ts = .ok l) : entries false (t :: ts) = .ok (text :: l) := by
  rw [entries]
  · simp [ht, hl]
  · nofun

theorem entries_true_cons {key : String} {l : List String} (ht : print (.operand 0) t = .ok text)
    (hl : entries true ts = .ok l) :
    entries true (.pair (.atom key) t :: ts) = .ok ((key ++ ": " ++ text) :: l) := by
  rw [entries]
  simp [ht, hl]

theorem Written.expression [CharacterNames] (h : Written t) :
    ∃ text, print (.operand 0) t = .ok text ∧
    Spelled Stops text.toList (runsOf (.tier 0) t) := by
  obtain ⟨text, h⟩ := h
  have := h.operand (k := 0) (by decide)
  rw [ofTier_of_le (by decide)] at this
  exact ⟨_, this⟩

theorem listed_patterns [CharacterNames] (hne : items ≠ []) (h : ∀ t ∈ items, Written t) :
    Listed (entries false items) (runsOfAll .patterns items) := by
  induction items with
  | nil => exact absurd rfl hne
  | cons t items ih =>
    obtain ⟨ht, hitems⟩ := List.forall_mem_cons.1 h
    obtain ⟨text, hp, hs⟩ := ht.expression
    by_cases hitems' : items = []
    · subst hitems'
      refine ⟨[text], entries_false_cons hp rfl, List.cons_ne_nil _ _, ?_⟩
      rw [commas_singleton]
      exact hs.mono (singleton_le fun _ _ => .lastPattern)
    · obtain ⟨l, hl, hlne, hsl⟩ := ih hitems' hitems
      exact ⟨text :: l, entries_false_cons hp hl, List.cons_ne_nil _ _,
        (spelled_commas hs hsl hlne).mono patterns_cons_le⟩

def Keyed [CharacterNames] (items : List Tree) : Prop :=
  ∀ t ∈ items, ∃ key value, t = .pair (.atom key) value ∧ IsToken .key (key ++ ":") ∧ Written value

theorem listed_keywords [CharacterNames] (hne : items ≠ []) (h : Keyed items) :
    Listed (entries true items) (runsOfKeywords items) := by
  induction items with
  | nil => exact absurd rfl hne
  | cons t items ih =>
    obtain ⟨⟨key, value, rfl, hkey, hvalue⟩, hitems⟩ := List.forall_mem_cons.1 h
    obtain ⟨text, hp, hs⟩ := hvalue.expression
    have hentry : Spelled Stops (key ++ ": " ++ text).toList
        (spelt .key (key ++ ":") * runsOf (.tier 0) value) := by
      simpa using (hkey.spelled nofun).stopped hs.blank (by decide)
    by_cases hitems' : items = []
    · subst hitems'
      refine ⟨[_], entries_true_cons hp rfl, List.cons_ne_nil _ _, ?_⟩
      rw [commas_singleton]
      exact hentry.mono keyword_le
    · obtain ⟨l, hl, hlne, hsl⟩ := ih hitems' hitems
      exact ⟨_ :: l, entries_true_cons hp hl, List.cons_ne_nil _ _,
        (spelled_commas hentry hsl hlne).mono keywords_cons_le⟩

theorem spelled_items [CharacterNames] (h : ∀ t ∈ items, Written t)
    (hk : isKeywords items → Keyed items) :
    ∃ l, entries (isKeywords items) items = .ok l ∧
      Spelled Stops (commas l).toList (runsOfAll .arguments items) := by
  by_cases hne : items = []
  · subst hne
    exact ⟨[], rfl, spelled_nil.mono one_le_arguments⟩
  · cases hkeys : isKeywords items with
    | true =>
      obtain ⟨l, hl, -, hs⟩ := (listed_keywords hne (hk hkeys)).mono keywords_le
      exact ⟨l, hl, hs⟩
    | false =>
      obtain ⟨l, hl, -, hs⟩ := (listed_patterns hne h).mono patterns_le
      exact ⟨l, hl, hs⟩

theorem written_list [CharacterNames] (h : ∀ t ∈ items, Written t)
    (hk : isKeywords items → Keyed items)
    (hc : isClauses items = false) : Written (.list items) := by
  obtain ⟨l, hl, hs⟩ := spelled_items h hk
  have hspelled : Spelled Stops ('[' :: ((commas l).toList ++ [']'])) _ :=
    hs.enclosed (o := .leftBracket) (e := .rightBracket) rfl rfl rfl (by decide)
  refine ⟨"[" ++ commas l ++ "]", .of_tight rfl (fun place _ => ?_) ?_ ?_⟩
  · rw [print, hc, hl]
    simp
  · simpa using hspelled.mono (list_le.trans runsOf_primary_le)
  · rw [String.toList_append, String.toList_append, List.append_assoc]
    exact (apart_cons (by decide) []).append _

theorem written_tuple [CharacterNames] (h : ∀ t ∈ args, Written t)
    (hk : isKeywords args → Keyed args)
    (hlen : args.length ≠ 2) : Written (.named "\x7b\x7d" args ⟨line, none⟩) := by
  obtain ⟨l, hl, hs⟩ := spelled_items h hk
  have hspelled : Spelled Stops ('\x7b' :: ((commas l).toList ++ ['\x7d'])) _ :=
    hs.enclosed (o := .leftBrace) (e := .rightBrace) rfl rfl rfl (by decide)
  refine ⟨"\x7b" ++ commas l ++ "\x7d", .of_tight (ownTier_named (by decide) (by decide))
    (fun place _ => ?_) ?_ ?_⟩
  · rw [Tree.named, print]
    simp [hl]
  · simpa using hspelled.mono ((tuple_le hlen).trans runsOf_primary_le)
  · rw [String.toList_append, String.toList_append, List.append_assoc]
    exact (apart_cons (by decide) []).append _

theorem written_pair [CharacterNames] (ht : Written t) (hu : Written u) : Written (.pair t u) := by
  obtain ⟨left, hpl, hsl⟩ := ht.expression
  obtain ⟨right, hpr, hsr⟩ := hu.expression
  have hright : Spelled Stops (commas [right]).toList (runsOfAll .patterns [u]) := by
    rw [commas_singleton]
    exact hsr.mono (singleton_le fun _ _ => .lastPattern)
  have hboth := (spelled_commas hsl hright (List.cons_ne_nil _ _)).mono
    (patterns_cons_le.trans patterns_le)
  have hspelled : Spelled Stops ('\x7b' :: ((commas [left, right]).toList ++ ['\x7d'])) _ :=
    hboth.enclosed (o := .leftBrace) (e := .rightBrace) rfl rfl rfl (by decide)
  refine ⟨"\x7b" ++ commas [left, right] ++ "\x7d", .of_tight rfl (fun place _ => ?_) ?_ ?_⟩
  · rw [print]
    simp [hpl, hpr, commas, String.intercalate_cons_cons]
    rfl
  · simpa using hspelled.mono (pair_le.trans runsOf_primary_le)
  · rw [String.toList_append, String.toList_append, List.append_assoc]
    exact (apart_cons (by decide) []).append _

theorem arguments_cons {l : List String} (ht : print (.operand 0) t = .ok text)
    (hl : arguments 0 ts = .ok l)
    (hk : ts = [] → ∀ items, t = .list items → isKeywords items = false) :
    arguments 0 (t :: ts) = .ok (text :: l) := by
  rw [arguments]
  cases t with
  | list items =>
    rw [print] at ht
    simp only [reduceCtorEq, decide_false, Bool.false_and] at ht
    obtain ⟨texts, htexts, htext⟩ := bind_eq_ok.1 ht
    cases htext
    have hbare : isKeywords items → ts ≠ [] := by
      rintro hkeys rfl
      rw [hk rfl items rfl] at hkeys
      cases hkeys
    simpa [htexts, hl] using fun hkeys hts => absurd hts (hbare hkeys)
  | _ => simp [ht, hl]

theorem arguments_keywords {l : List String} (hk : isKeywords items)
    (hl : entries true items = .ok l) : arguments 0 [.list items] = .ok [commas l] := by
  rw [arguments]
  simp [hk, hl, arguments]

theorem listed_arguments [CharacterNames] (hne : args ≠ []) (h : ∀ t ∈ args, Written t)
    (hk : ∀ items, .list items ∈ args → isKeywords items → Keyed items) :
    Listed (arguments 0 args) (runsOfArguments .entries args) := by
  induction args with
  | nil => exact absurd rfl hne
  | cons t args ih =>
    obtain ⟨ht, hargs⟩ := List.forall_mem_cons.1 h
    obtain ⟨text, hp, hs⟩ := ht.expression
    by_cases hargs' : args = []
    · subst hargs'
      by_cases hkeys : ∃ items, t = .list items ∧ isKeywords items
      · obtain ⟨items, rfl, hkeys⟩ := hkeys
        have hne : items ≠ [] := by
          rintro rfl
          cases hkeys
        obtain ⟨l, hl, -, hsl⟩ := listed_keywords hne (hk items (List.mem_singleton_self _) hkeys)
        refine ⟨[commas l], arguments_keywords hkeys hl, List.cons_ne_nil _ _, ?_⟩
        rw [commas_singleton]
        exact hsl.mono arguments_keywords_le
      · refine ⟨[text], arguments_cons hp rfl fun _ items hitems => ?_, List.cons_ne_nil _ _, ?_⟩
        · simpa using fun h => hkeys ⟨items, hitems, h⟩
        · rw [commas_singleton]
          exact hs.mono arguments_singleton_le
    · obtain ⟨l, hl, hlne, hsl⟩ :=
        ih hargs' hargs fun items hm => hk items (List.mem_cons_of_mem _ hm)
      exact ⟨text :: l, arguments_cons hp hl fun h => absurd h hargs', List.cons_ne_nil _ _,
        (spelled_commas hs hsl hlne).mono arguments_cons_le⟩

theorem spelled_arguments [CharacterNames] (h : ∀ t ∈ args, Written t)
    (hk : ∀ items, .list items ∈ args → isKeywords items → Keyed items) :
    ∃ l, arguments 0 args = .ok l ∧ (l = [] ↔ args = []) ∧
      Spelled Stops (commas l).toList (runsOfArguments .arguments args) := by
  by_cases hne : args = []
  · subst hne
    exact ⟨[], rfl, by simp, spelled_nil.mono one_le_runsOfArguments⟩
  · obtain ⟨l, hl, hlne, hs⟩ := (listed_arguments hne h hk).mono runsOfArguments_le
    exact ⟨l, hl, by simp [hne, hlne], hs⟩

theorem IsToken.noForm (h : IsToken .name name) : binaryTier? name = none ∧
    isUnaryName name = false ∧ name ≠ "\x7b\x7d" ∧ name ≠ "->" ∧ name ≠ "@" := by
  have hspelled := h.spelled?_eq_none rfl
  refine ⟨by rw [binaryTier?, hspelled]; rfl, by rw [isUnaryName, hspelled]; rfl, ?_, ?_, ?_⟩ <;>
    rintro rfl <;> revert h <;> decide

theorem print_call {l : List String} (hname : IsToken .name name)
    (hb : name ≠ "__block__") (ha : name ≠ "__aliases__")
    (hs : args.getLast?.any isSections = false) (hl : arguments 0 args = .ok l) :
    print place (.named name args note) = .ok (name ++ "(" ++ commas l ++ ")") := by
  obtain ⟨hbin, hun, h₁, h₂, h₃⟩ := hname.noForm
  rw [Tree.named, print]
  simp [hb, ha, h₁, h₂, h₃, hbin, hun, hs, hl]

theorem ownTier_of_isToken (h : IsToken .name name) :
    ownTier (.named name args note) = tightTier :=
  ownTier_named h.noForm.1 h.noForm.2.1

theorem spelled_argumentList {l : List String} (h : Spelled Stops (commas l).toList L) :
    Spelled Stops ('(' :: ((commas l).toList ++ [')']))
      (spelt (.sign .leftParen) "(" * L * spelt (.sign .rightParen) ")") :=
  h.enclosed (o := .leftParen) (e := .rightParen) rfl rfl rfl (by decide)

theorem written_call [CharacterNames] (hname : IsToken .name name) (hb : name ≠ "__block__")
    (ha : name ≠ "__aliases__") (hs : args.getLast?.any isSections = false)
    (h : ∀ t ∈ args, Written t)
    (hk : ∀ items, .list items ∈ args → isKeywords items → Keyed items) :
    Written (.named name args ⟨line, none⟩) := by
  obtain ⟨l, hl, -, hsl⟩ := spelled_arguments h hk
  have hspelled := (hname.spelled nofun).stopped (spelled_argumentList hsl) (by decide)
  rw [← mul_assoc, ← mul_assoc] at hspelled
  refine ⟨name ++ "(" ++ commas l ++ ")", .of_tight (ownTier_of_isToken hname)
    (fun _ _ => print_call hname hb ha hs hl) ?_ ?_⟩
  · simpa using hspelled.mono (call_le.trans runsOf_primary_le)
  · rw [String.toList_append, String.toList_append, String.toList_append, List.append_assoc,
      List.append_assoc]
    exact (hname.apart nofun).append _

theorem IsToken.isNameStart (h : IsToken .name name) :
    ∃ c ∈ name.toList.head?, Code.isNameStart c := by
  have hmem : (⟨.name, name, 1⟩ : Token) ∈ (Lexed.ofCode name 1).tokens := by
    unfold IsToken tokens? at h
    dsimp only at h
    split at h
    · rw [Option.some.inj h]
      exact List.mem_singleton_self _
    · cases h
  exact (Lexed.spelled_of_mem_tokens hmem).name rfl

theorem stops_point (h : IsToken .name name) (n : Nat) :
    Stops (shift n ('.' :: (name.toList ++ cs)) ++ rest) := by
  obtain ⟨d, hd, hstart⟩ := h.isNameStart
  have hhead : (shift n (name.toList ++ cs)).head? = some d := by
    rw [head?_shift, List.head?_append, Option.mem_def.1 hd]
    rfl
  rw [shift_cons n (by decide)]
  refine .inr ⟨rfl, d, ?_, hstart⟩
  rw [List.append_eq, List.head?_append, hhead]
  rfl

theorem spelled_point (ht : Spelled Stops ds L) (hname : IsToken .name name)
    (h : Spelled Stops (name.toList ++ cs) M) :
    Spelled Stops (ds ++ '.' :: (name.toList ++ cs)) (L * (spelt (.sign .dot) "." * M)) :=
  ht.append (Spelled.mark (m := .dot) rfl h) fun n _ _ => stops_point hname n

variable {dotLine pathLine : Option Int}

theorem print_remoteCall {l : List String}
    (h : (isAccess t (.atom name) && decide (args.length = 2)) = false)
    (ht : print (.operand tightTier) t = .ok text) (hl : arguments 0 args = .ok l) :
    print place (.call (.named "." [t, .atom name] note) ⟨line, none⟩ args) =
      .ok (text ++ "." ++ name ++ "(" ++ commas l ++ ")") := by
  rw [Tree.named, print, h]
  simp [ht, hl, nameOf]

theorem print_field (ht : print (.operand tightTier) t = .ok text) :
    print place (.call (.named "." [t, .atom name] note) ⟨line, some true⟩ []) =
      .ok (text ++ "." ++ name) := by
  rw [Tree.named, print]
  simp [ht, nameOf]

theorem print_access (ht : print (.operand tightTier) t = .ok left)
    (hu : print (.operand 0) u = .ok right) {note' note'' : Annotation} :
    print place
        (.call (.named "." [.moduleName ["Access"] note, .atom "get"] note') note'' [t, u]) =
      .ok (left ++ "[" ++ right ++ "]") := by
  rw [Tree.named, print]
  simp [isAccess, Tree.moduleName, Tree.named, operand, ht, hu]

theorem written_remoteCall [CharacterNames] (hname : IsToken .name name) (ht : Written t)
    (ha : (isAccess t (.atom name) && decide (args.length = 2)) = false)
    (h : ∀ t ∈ args, Written t)
    (hk : ∀ items, .list items ∈ args → isKeywords items → Keyed items) :
    Written (.call (.named "." [t, .atom name] ⟨dotLine, none⟩) ⟨line, none⟩ args) := by
  obtain ⟨text, ht⟩ := ht
  obtain ⟨l, hl, -, hsl⟩ := spelled_arguments h hk
  obtain ⟨hp, hs⟩ := ht.operand (k := tightTier) le_rfl
  have hcall := (hname.spelled nofun).stopped (spelled_argumentList hsl) (by decide)
  have hspelled := spelled_point hs hname hcall
  simp only [← mul_assoc] at hspelled
  refine ⟨_, .of_tight rfl (fun _ _ => print_remoteCall ha hp hl) ?_ ?_⟩
  · simpa using hspelled.mono remoteCall_le
  · simpa using ht.apart.append _

theorem written_field [CharacterNames] (hname : IsToken .name name) (ht : Written t) :
    Written (.call (.named "." [t, .atom name] ⟨dotLine, none⟩) ⟨line, some true⟩ []) := by
  obtain ⟨text, ht⟩ := ht
  obtain ⟨hp, hs⟩ := ht.operand (k := tightTier) le_rfl
  have hname' : Spelled Stops (name.toList ++ []) (spelt .name name) := by
    simpa using hname.spelled nofun
  have hspelled := spelled_point hs hname hname'
  rw [← mul_assoc] at hspelled
  refine ⟨_, .of_tight rfl (fun _ _ => print_field hp) ?_ ?_⟩
  · simpa using hspelled.mono field_le
  · simpa using ht.apart.append _

theorem written_access [CharacterNames] (ht : Written t) (hu : Written u) :
    Written (.call (.named "." [.moduleName ["Access"] ⟨pathLine, none⟩, .atom "get"]
      ⟨dotLine, none⟩) ⟨line, none⟩ [t, u]) := by
  obtain ⟨left, ht⟩ := ht
  obtain ⟨hp, hs⟩ := ht.operand (k := tightTier) le_rfl
  obtain ⟨right, hpr, hsr⟩ := hu.expression
  have hkey : Spelled Stops ('[' :: (right.toList ++ [']'])) _ :=
    hsr.enclosed (o := .leftBracket) (e := .rightBracket) rfl rfl rfl (by decide)
  have hspelled := hs.stopped hkey (by decide)
  rw [← mul_assoc, ← mul_assoc] at hspelled
  refine ⟨_, .of_tight rfl (fun _ _ => print_access hp hpr) ?_ ?_⟩
  · simpa using hspelled.mono access_le
  · simpa using ht.apart.append _

end EmbeddedTemplate.Code
