import EmbeddedTemplate.Proofs.Code.Joining
import EmbeddedTemplate.Proofs.Code.Quoting
import EmbeddedTemplate.Proofs.Code.Spelling

namespace EmbeddedTemplate.Code

open Lexed

variable {mode : Mode} {c : Char} {cs ds rest : List Char} {n m : Nat} {line line' : Int}
  {kind : LexemeKind} {text text' : String}

namespace Mode

def isOpen : Mode → Bool
  | .string | .escape => true
  | _ => false

/-- No line break of the code is in a string. -/
def Unbroken : Mode → List Char → Prop
  | _, [] => True
  | mode, c :: cs => (c = '\n' → mode.isOpen = false) ∧ (mode.next c).Unbroken cs

theorem unbroken_append :
    mode.Unbroken (cs ++ ds) ↔ mode.Unbroken cs ∧ (mode.after cs).Unbroken ds := by
  induction cs generalizing mode with
  | nil => simp [Unbroken]
  | cons c cs ih => simp [Unbroken, ih, and_assoc]

theorem unbroken_of_not_mem (h : '\n' ∉ cs) : mode.Unbroken cs := by
  induction cs generalizing mode with
  | nil => trivial
  | cons c cs ih =>
    obtain ⟨hc, hcs⟩ := not_or.1 (mt List.mem_cons.2 h)
    exact ⟨fun heq => absurd heq.symm hc, ih hcs⟩

theorem unbroken_plain (h : ∀ c ∈ cs, c ≠ '"' ∧ c ≠ '#') : plain.Unbroken cs := by
  induction cs with
  | nil => trivial
  | cons c cs ih =>
    obtain ⟨⟨hs, hc⟩, h⟩ := List.forall_mem_cons.1 h
    rw [Unbroken, next, if_neg hs, if_neg hc]
    exact ⟨fun _ => rfl, ih h⟩

end Mode

namespace Lexeme

theorem not_mem_of_unbroken (hu : Mode.string.Unbroken cs) :
    '\n' ∉ cs.take ((stringRest cs).getD cs.length) := by
  fun_induction stringRest cs with
  | case1 c cs ih =>
    obtain ⟨-, hc, hu⟩ := hu
    have hne : c ≠ '\n' := fun h => by cases hc h
    have hlength := Option.getD_map (· + 2) cs.length (stringRest cs)
    rw [List.length_cons, List.length_cons, hlength, List.take_succ_cons, List.take_succ_cons]
    simpa [hne.symm] using ih hu
  | case2 => decide
  | case3 cs => simp
  | case4 c cs hne hne' hq ih =>
    obtain ⟨hc, hu⟩ := hu
    have hbreak : c ≠ '\n' := fun h => by cases hc h
    have hescape : c ≠ '\\' := ne_backslash hne hne'
    rw [Mode.next, if_neg hescape, if_neg hq] at hu
    have hlength := Option.getD_map (· + 1) cs.length (stringRest cs)
    rw [List.length_cons, hlength, List.take_succ_cons]
    simpa [hbreak.symm] using ih hu
  | case5 => simp

theorem first?_shift (hu : Mode.plain.Unbroken (c :: cs)) (hb : isCodeBlank c = false) :
    first? c (shift n cs) = first? c cs := by
  obtain ⟨run, rest, hcs, -, hrun, hhead⟩ := exists_takeWhile (· ≠ '\n') cs
  have hnone : '\n' ∉ run := fun h => by simpa using hrun _ h
  by_cases hs : c = '"'
  · subst hs
    have hmem := not_mem_of_unbroken hu.2
    rw [first?_quote, first?_quote]
    cases h : stringRest cs with
    | none =>
      rw [h, Option.getD_none, List.take_length] at hmem
      rw [shift_of_not_mem hmem, h]
    | some m =>
      rw [h, Option.getD_some] at hmem
      have hshift := shift_append n (cs.take m) (cs.drop m)
      rw [List.take_append_drop, shift_of_not_mem hmem] at hshift
      rw [hshift, stringRest_append (stringRest_take h)]
  subst hcs
  cases rest with
  | nil => rw [List.append_nil, shift_of_not_mem hnone]
  | cons d rest =>
    obtain rfl : d = '\n' := by simpa using hhead
    rw [shift_append, shift_of_not_mem hnone, shift_break]
    by_cases hh : c = '#'
    · subst hh
      rw [first?_hash, first?_hash, List.takeWhile_append_of_pos hrun,
        List.takeWhile_append_of_pos hrun]
      simp
    · have hbreak (more : List Char) : first? c (run ++ '\n' :: more) = first? c run :=
        first?_append (neutral_of_mem (by decide)) nofun hb hs hh
      rw [hbreak, hbreak]

theorem not_mem_of_first?_unbroken (hu : Mode.plain.Unbroken (c :: cs)) (hb : isCodeBlank c = false)
    (h : first? c cs = some (kind, n)) : '\n' ∉ cs.take n := by
  by_cases hs : c = '"'
  · subst hs
    have hmem := not_mem_of_unbroken hu.2
    rw [first?_quote] at h
    obtain ⟨m, hm, h⟩ := Option.map_eq_some_iff.1 h
    cases h
    rwa [hm, Option.getD_some] at hmem
  by_cases hh : c = '#'
  · subst hh
    rw [first?_hash] at h
    cases h
    obtain ⟨run, rest, rfl, hr, hrun, -⟩ := exists_takeWhile (· ≠ '\n') cs
    rw [hr, List.take_left]
    exact fun h => by simpa using hrun _ h
  exact not_mem_of_first? h hb hs hh (neutral_of_mem (by decide)) (by decide)

theorem unbroken_drop (hu : Mode.plain.Unbroken (c :: cs)) (h : first? c cs = some (kind, n)) :
    Mode.plain.Unbroken (cs.drop n) := by
  rw [← List.take_append_drop n cs, ← List.cons_append, Mode.unbroken_append] at hu
  obtain hplain | ⟨-, hcomment, hhead⟩ := after_take h
  · rw [hplain] at hu
    exact hu.2
  · rw [hcomment] at hu
    cases hrest : cs.drop n with
    | nil => trivial
    | cons d rest =>
      rw [hrest] at hu
      obtain rfl := hhead d (by rw [hrest]; rfl)
      exact ⟨fun _ => rfl, hu.2.2⟩

end Lexeme

theorem spelling_shift (hu : Mode.plain.Unbroken cs) (n : Nat) (line line' : Int) :
    (tokensAt? line (shift n cs)).map (·.map Token.spelling) =
      (tokensAt? line' cs).map (·.map Token.spelling) := by
  -- A run of blanks may get longer, but is no token; no other lexeme goes over a line break.
  induction line', cs using scan_induction generalizing line with
  | nil line' => rfl
  | none line' c cs hf =>
    have hb : isCodeBlank c = false :=
      Lexeme.isCodeBlank_eq_false fun _ hb => nomatch hf.symm.trans hb
    have hbreak : c ≠ '\n' := by
      rintro rfl
      cases hb
    rw [shift_cons n hbreak, tokensAt?_none hf,
      tokensAt?_none ((Lexeme.first?_shift hu hb).trans hf)]
  | some line' c cs kind m hf ih =>
    have hrest := Lexeme.unbroken_drop hu hf
    cases hb : isCodeBlank c with
    | true =>
      rw [Lexeme.first?_blank hb] at hf
      cases hf
      obtain ⟨run, rest, rfl, hr, hrun, -⟩ := Lexeme.exists_takeWhile isCodeBlank cs
      have hblanks : ∀ d ∈ c :: run, isCodeBlank d := List.forall_mem_cons.2 ⟨hb, hrun⟩
      rw [hr, List.drop_left] at hrest
      rw [hr, List.drop_left, List.take_left] at ih
      rw [← List.cons_append, shift_append, tokensAt?_blanks (shift_blanks hblanks),
        tokensAt?_blanks hblanks]
      exact ih hrest _
    | false =>
      have hbreak : c ≠ '\n' := by
        rintro rfl
        cases hb
      have hlength : (cs.take m).length = m :=
        List.length_take_of_le (Lexeme.starts_of_first? hf).le
      have hshift : shift n cs = cs.take m ++ shift n (cs.drop m) := by
        rw [← shift_of_not_mem (Lexeme.not_mem_of_first?_unbroken hu hb hf), ← shift_append,
          List.take_append_drop]
      have hf' : Lexeme.first? c (shift n cs) = some (kind, m) :=
        (Lexeme.first?_shift hu hb).trans hf
      rw [shift_cons n hbreak, spelling_some hf', spelling_some hf, hshift,
        List.take_left' hlength, List.drop_left' hlength, ih hrest,
        Lexeme.spelling_token? kind _ line line']

theorem unbroken_shift (hu : mode.Unbroken cs) (n : Nat) :
    mode.Unbroken (shift n cs) ∧ mode.after (shift n cs) = mode.after cs := by
  induction cs generalizing mode with
  | nil => exact ⟨trivial, rfl⟩
  | cons c cs ih =>
    obtain ⟨hc, hu⟩ := hu
    by_cases hbreak : c = '\n'
    · subst hbreak
      have hplain : mode.next '\n' = .plain := by
        cases mode <;> first | rfl | cases hc rfl
      rw [hplain] at hu
      have hblanks : ∀ d ∈ List.replicate n ' ', d ≠ '"' ∧ d ≠ '#' := by
        intro d hd
        obtain rfl := List.eq_of_mem_replicate hd
        decide
      have hafter := Mode.after_plain hblanks
      rw [shift_break, Mode.Unbroken, Mode.after_cons, Mode.after_cons, hplain,
        Mode.unbroken_append, Mode.after_append, hafter]
      exact ⟨⟨hc, Mode.unbroken_plain hblanks, (ih hu).1⟩, (ih hu).2⟩
    · rw [shift_cons n hbreak, Mode.Unbroken, Mode.after_cons, Mode.after_cons]
      exact ⟨⟨hc, (ih hu).1⟩, (ih hu).2⟩

theorem not_mem_literal (s : String) : '\n' ∉ (Text.literal s).toList := by
  rw [Text.literal, String.toList_ofList]
  simpa using Literal.not_mem_flatMap (by decide) s.toList

/-- Text that starts and ends outside of strings and comments, and has no line break in a string. -/
structure Whole (text : String) : Prop where
  unbroken : Mode.plain.Unbroken text.toList
  ends : Mode.plain.after text.toList = .plain

def isBare (text : String) : Bool := text.toList.all fun c => c ≠ '"' && c ≠ '#'

namespace Whole

theorem of_bare (h : isBare text) : Whole text := by
  have hall : ∀ c ∈ text.toList, c ≠ '"' ∧ c ≠ '#' := by simpa [isBare] using h
  exact ⟨Mode.unbroken_plain hall, Mode.after_plain hall⟩

theorem append (h : Whole text) (h' : Whole text') : Whole (text ++ text') := by
  constructor
  · rw [String.toList_append, Mode.unbroken_append, h.ends]
    exact ⟨h.unbroken, h'.unbroken⟩
  · rw [String.toList_append, Mode.after_append, h.ends, h'.ends]

theorem enclosed {opening closing : String} (ho : isBare opening) (h : Whole text)
    (hc : isBare closing) : Whole (opening ++ text ++ closing) :=
  ((of_bare ho).append h).append (of_bare hc)

theorem joined {sep : String} (h : Whole text) (hs : isBare sep) (h' : Whole text') :
    Whole (text ++ sep ++ text') :=
  (h.append (of_bare hs)).append h'

theorem literal (s : String) : Whole (Text.literal s) := by
  refine ⟨Mode.unbroken_of_not_mem (not_mem_literal s), ?_⟩
  have hrest := stringRest_literal s.toList []
  have hdrop : (s.toList.flatMap Text.literalChar ++ ['"']).drop
      ((s.toList.flatMap Text.literalChar).length + 1) = [] :=
    List.drop_eq_nil_of_le (by simp)
  rw [Text.literal, String.toList_ofList, List.cons_append, Mode.after_cons]
  exact (Lexeme.after_stringRest hrest).trans (by rw [hdrop, Mode.after_nil])

theorem toList_indent (text : String) :
    (Printer.indent text).toList = ' ' :: ' ' :: shift 2 text.toList := by
  rw [← shift_indent 0, shift_zero]

theorem indent (h : Whole text) : Whole (Printer.indent text) := by
  obtain ⟨hu, ha⟩ := unbroken_shift h.unbroken 2
  constructor
  · rw [toList_indent]
    exact ⟨nofun, nofun, hu⟩
  · rw [toList_indent]
    exact ha.trans h.ends

theorem intercalate {sep : String} {l : List String} (hsep : Whole sep)
    (h : ∀ text ∈ l, Whole text) : Whole (sep.intercalate l) := by
  induction l with
  | nil => exact of_bare rfl
  | cons text l ih =>
    obtain ⟨ht, hl⟩ := List.forall_mem_cons.1 h
    cases l with
    | nil => exact String.intercalate_singleton ▸ ht
    | cons text' l =>
      rw [String.intercalate_cons_of_ne_nil (List.cons_ne_nil _ _)]
      exact (ht.append hsep).append (ih hl)

/-- Indented text has the same tokens, and so the same strings. -/
theorem spellings?_indent (h : Whole text) :
    spellings? (Printer.indent text) = spellings? text := by
  rw [spellings?, spellings?, tokensAt?_of_tokens?, tokensAt?_of_tokens?, toList_indent,
    tokensAt?_blank rfl, tokensAt?_blank rfl]
  exact spelling_shift h.unbroken 2 _ _

end Whole

end EmbeddedTemplate.Code
