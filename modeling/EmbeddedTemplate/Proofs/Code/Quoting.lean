import EmbeddedTemplate.Code.Literal
import EmbeddedTemplate.Proofs.Code.Spelling
import EmbeddedTemplate.Proofs.Outcome
import EmbeddedTemplate.Text.Quoted
import Mathlib.Tactic.Ring

namespace EmbeddedTemplate

namespace Code.Literal

theorem isHex_digitChar {d : Nat} (h : d < 16) : isHex (Nat.digitChar d) := by
  have : ∀ d < 16, isHex (Nat.digitChar d) := by decide
  exact this d h

theorem digitValue_digitChar {d : Nat} (h : d < 16) : digitValue (Nat.digitChar d) = d := by
  have : ∀ d < 16, digitValue (Nat.digitChar d) = d := by decide
  exact this d h

theorem isHex_of_mem_hex {width n : Nat} : ∀ c ∈ Text.hex width n, isHex c := by
  induction width with
  | zero => simp [Text.hex]
  | succ width ih =>
    exact List.forall_mem_cons.2 ⟨isHex_digitChar (Nat.mod_lt _ (by decide)), ih⟩

theorem foldl_hex (width n acc : Nat) :
    (Text.hex width n).foldl (fun n c => 16 * n + digitValue c) acc =
      acc * 16 ^ width + n % 16 ^ width := by
  induction width generalizing acc with
  | zero => simp [Text.hex, Nat.mod_one]
  | succ width ih =>
    rw [Text.hex, Nat.pow_eq, List.foldl_cons, ih, digitValue_digitChar (Nat.mod_lt _ (by decide)),
      Nat.pow_succ, Nat.mod_mul]
    ring

theorem valueOf_hex {width n : Nat} (h : n < 16 ^ width) : valueOf 16 (Text.hex width n) = n := by
  rw [valueOf, foldl_hex, Nat.zero_mul, Nat.zero_add, Nat.mod_eq_of_lt h]

theorem charOf_toNat (c : Char) : charOf c.toNat = c := by
  rw [charOf, if_pos (show c.toNat.isValidChar from c.valid), Char.ofNat_toNat]

theorem numeric_hex {start : Nat} {c : Char} {rest : List Char} (h : c.toNat < 16 ^ 4) :
    numeric start 'u' 4 (Text.hex 4 c.toNat ++ rest) = .ok ⟨[c], 5, 6⟩ := by
  have hdigits : ((Text.hex 4 c.toNat ++ rest).takeWhile isHex).take 4 = Text.hex 4 c.toNat := by
    rw [List.takeWhile_append_of_pos isHex_of_mem_hex, List.take_left' (Text.length_hex ..)]
  unfold numeric
  dsimp only
  rw [hdigits, Text.length_hex, if_neg (Nat.lt_irrefl _), valueOf_hex h, if_neg, charOf_toNat]
  omega

variable {start : Nat} {c d : Char} {cs rest : List Char}

theorem unescape_taken [CharacterNames] (start : Nat) (cs rest : List Char) :
    unescape cs.length start (cs ++ rest) = unescape 0 start rest := by
  induction cs with
  | nil => rfl
  | cons c cs ih => exact ih

theorem unescape_plain [CharacterNames] (h : c ≠ '\\') : unescape 0 start (c :: rest) =
    (unescape 0 (start + width c) rest).map (c :: ·) := by
  rw [unescape, if_neg h]
  simp only [ok_bind]
  cases unescape 0 (start + width c) rest <;> rfl

theorem unescape_escape [CharacterNames] {one : Escape} (h : escape start rest = .ok one) :
    unescape 0 start ('\\' :: rest) =
      (unescape one.length (start + one.width) rest).map (one.value ++ ·) := by
  rw [unescape, if_pos rfl, h]
  simp only [ok_bind]
  cases unescape one.length (start + one.width) rest <;> rfl

theorem unescape_simple [CharacterNames] {value : List Char} (h : simple? d = some value) :
    unescape 0 start ('\\' :: d :: rest) =
      (unescape 0 (start + 2) rest).map (value ++ ·) := by
  have he : escape start (d :: rest) = .ok ⟨value, 1, 2⟩ := by
    rw [escape, h]
  rw [unescape_escape he]
  rfl

theorem unescape_numeric [CharacterNames] (h : c.toNat < 16 ^ 4) :
    unescape 0 start ('\\' :: 'u' :: Text.hex 4 c.toNat ++ rest) =
      (unescape 0 (start + 6) rest).map (c :: ·) := by
  have he : escape start ('u' :: (Text.hex 4 c.toNat ++ rest)) = .ok ⟨[c], 5, 6⟩ :=
    numeric_hex h
  have hskip : unescape 5 (start + 6) ('u' :: (Text.hex 4 c.toNat ++ rest)) =
      unescape 0 (start + 6) rest :=
    by simpa using unescape_taken (start + 6) ('u' :: Text.hex 4 c.toNat) rest
  rw [List.cons_append, List.cons_append, unescape_escape he, hskip]
  rfl

theorem unescape_literalChar [CharacterNames] (start : Nat) (c : Char) (rest : List Char) :
    ∃ start', unescape 0 start (Text.literalChar c ++ rest) =
      (unescape 0 start' rest).map (c :: ·) := by
  unfold Text.literalChar
  split
  · next h =>
    have : simple? c = some [c] := by
      obtain rfl | rfl : c = '"' ∨ c = '\\' := by simpa using h
      all_goals rfl
    exact ⟨_, unescape_simple this⟩
  split
  · next h => exact ⟨_, unescape_simple (show simple? 'n' = some [c] by rw [h]; rfl)⟩
  split
  · next h => exact ⟨_, unescape_simple (show simple? 'r' = some [c] by rw [h]; rfl)⟩
  split
  · next h => exact ⟨_, unescape_simple (show simple? 't' = some [c] by rw [h]; rfl)⟩
  split
  · next h => exact ⟨_, unescape_simple (show simple? 'b' = some [c] by rw [h]; rfl)⟩
  split
  · next h => exact ⟨_, unescape_simple (show simple? 'f' = some [c] by rw [h]; rfl)⟩
  split
  · next h => exact ⟨_, unescape_numeric (by omega)⟩
  · next h _ _ _ _ _ _ => exact ⟨_, unescape_plain fun hc => h (by simp [hc])⟩

theorem unescape_literal [CharacterNames] (start : Nat) (cs : List Char) :
    unescape 0 start (cs.flatMap Text.literalChar) = .ok cs := by
  induction cs generalizing start with
  | nil => rfl
  | cons c cs ih =>
    obtain ⟨start', h⟩ := unescape_literalChar start c (cs.flatMap Text.literalChar)
    rw [List.flatMap_cons, h, ih]
    rfl

theorem escapeBreaks_of_not_mem (h : '\n' ∉ cs) : escapeBreaks cs = cs := by
  induction cs with
  | nil => rfl
  | cons c cs ih =>
    obtain ⟨hc, hcs⟩ := not_or.1 (mt List.mem_cons.2 h)
    rw [escapeBreaks, List.flatMap_cons, if_neg (Ne.symm hc)]
    exact congrArg (c :: ·) (ih hcs)

theorem lastLine_of_not_mem (line : Nat) (h : '\r' ∉ cs) : lastLine line cs = (line, false) := by
  fun_induction lastLine line cs <;> simp_all

theorem not_mem_hex (h : isHex c = false) (width n : Nat) : c ∉ Text.hex width n := by
  intro hc
  rw [isHex_of_mem_hex c hc] at h
  cases h

theorem isHex_eq_false (h : c.toNat < 0x20) : isHex c = false := by
  have : ∀ n < 0x20, isHex (Char.ofNat n) = false := by decide
  rw [← Char.ofNat_toNat c]
  exact this _ h

theorem not_mem_literalChar (h : d.toNat < 0x20) : d ∉ Text.literalChar c := by
  have hd : d ∉ ['"', '\\', 'n', 'r', 't', 'b', 'f', 'u'] := by
    intro hm
    fin_cases hm <;> revert h <;> decide
  have hhex := not_mem_hex (isHex_eq_false h) 4 c.toNat
  unfold Text.literalChar
  grind

theorem not_mem_flatMap (h : d.toNat < 0x20) (cs : List Char) :
    d ∉ cs.flatMap Text.literalChar := by
  intro hm
  obtain ⟨c, -, hc⟩ := List.mem_flatMap.1 hm
  exact not_mem_literalChar h hc

theorem stringValue_literal [CharacterNames] (s : String) :
    stringValue (s.toList.flatMap Text.literalChar) = .ok s := by
  unfold stringValue
  rw [escapeBreaks_of_not_mem (not_mem_flatMap (by decide) _)]
  have hnul : (s.toList.flatMap Text.literalChar).contains '\x00' = false := by
    simpa using not_mem_flatMap (d := '\x00') (by decide) s.toList
  simp only [hnul, lastLine_of_not_mem 1 (not_mem_flatMap (d := '\r') (by decide) s.toList),
    unescape_literal, String.ofList_toList]
  rfl

end Code.Literal

namespace Code

variable {c : Char} {cs rest : List Char}

theorem stringRest_plain (h : ∀ c ∈ cs, c ≠ '\\' ∧ c ≠ '"') :
    Lexeme.stringRest (cs ++ rest) = (Lexeme.stringRest rest).map (· + cs.length) := by
  induction cs with
  | nil => simp
  | cons c cs ih =>
    obtain ⟨⟨hb, hq⟩, hcs⟩ := List.forall_mem_cons.1 h
    rw [List.cons_append, Lexeme.stringRest_cons hb hq, ih hcs]
    simp [Function.comp_def, Nat.add_assoc]

theorem stringRest_escape (c : Char) (rest : List Char) :
    Lexeme.stringRest ('\\' :: c :: rest) = (Lexeme.stringRest rest).map (· + 2) := rfl

theorem stringRest_literalChar (c : Char) (rest : List Char) :
    Lexeme.stringRest (Text.literalChar c ++ rest) =
      (Lexeme.stringRest rest).map (· + (Text.literalChar c).length) := by
  have hhex : ∀ d ∈ Text.hex 4 c.toNat, d ≠ '\\' ∧ d ≠ '"' := fun d hd => by
    have := Literal.isHex_of_mem_hex d hd
    constructor <;> rintro rfl <;> revert this <;> decide
  unfold Text.literalChar
  split
  · exact stringRest_escape c rest
  split
  · exact stringRest_escape 'n' rest
  split
  · exact stringRest_escape 'r' rest
  split
  · exact stringRest_escape 't' rest
  split
  · exact stringRest_escape 'b' rest
  split
  · exact stringRest_escape 'f' rest
  split
  · rw [List.cons_append, List.cons_append, stringRest_escape, stringRest_plain hhex]
    simp [Function.comp_def]
  · next h _ _ _ _ _ _ =>
    have hc : ∀ d ∈ [c], d ≠ '\\' ∧ d ≠ '"' := by simpa [and_comm] using h
    exact stringRest_plain hc

theorem stringRest_literal (cs rest : List Char) :
    Lexeme.stringRest (cs.flatMap Text.literalChar ++ '"' :: rest) =
      some ((cs.flatMap Text.literalChar).length + 1) := by
  induction cs with
  | nil => rfl
  | cons c cs ih =>
    rw [List.flatMap_cons, List.append_assoc, stringRest_literalChar, ih, List.length_append]
    simp only [Option.map_some, Option.some.injEq]
    omega

theorem spelled_literal (s : String) :
    Spelled Stops (Text.literal s).toList (spelt .string (Text.literal s)) := by
  have hn : '\n' ∉ '"' :: (s.toList.flatMap Text.literalChar ++ ['"']) := by
    simpa using Literal.not_mem_flatMap (d := '\n') (by decide) s.toList
  rw [Text.literal, String.toList_ofList, List.cons_append]
  refine spelled_lexeme (k := .string) hn (fun rest _ => ?_) fun _ => rfl
  rw [List.append_assoc, List.singleton_append, Lexeme.first?_quote, stringRest_literal]
  simp

theorem value_literal [CharacterNames] (s : String) (line : Int) :
    Literal.value ⟨.string, Text.literal s, line⟩ = .ok (.str s) := by
  have hbody : ((Text.literal s).toList.drop 1).dropLast = s.toList.flatMap Text.literalChar := by
    rw [Text.literal, String.toList_ofList]
    simp
  unfold Literal.value
  simp only [hbody, Literal.stringValue_literal]
  rfl

end Code

end EmbeddedTemplate
