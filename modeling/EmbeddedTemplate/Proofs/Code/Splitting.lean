import EmbeddedTemplate.Proofs.Code.Lexemes

/-!
Code that is put together from parts. Where a part ends outside of strings and comments and a blank
follows, the tokens of the whole are those of the part and then those of what follows.
-/

namespace EmbeddedTemplate.Code

/-- What the next character of code is read as a part of. -/
inductive Mode
  | plain
  | string
  | escape
  | comment
deriving DecidableEq, Repr

namespace Mode

def next : Mode → Char → Mode
  | .plain, c => if c = '"' then .string else if c = '#' then .comment else .plain
  | .string, c => if c = '\\' then .escape else if c = '"' then .plain else .string
  | .escape, _ => .string
  | .comment, c => if c = '\n' then .plain else .comment

def after (mode : Mode) (cs : List Char) : Mode := cs.foldl next mode

variable {mode : Mode} {c : Char} {cs : List Char}

@[simp] theorem after_nil : mode.after [] = mode := rfl

@[simp] theorem after_cons : mode.after (c :: cs) = (mode.next c).after cs := rfl

@[simp] theorem after_append (ds : List Char) : mode.after (cs ++ ds) = (mode.after cs).after ds :=
  List.foldl_append

theorem after_plain (h : ∀ c ∈ cs, c ≠ '"' ∧ c ≠ '#') : plain.after cs = .plain := by
  induction cs with
  | nil => rfl
  | cons c cs ih =>
    obtain ⟨⟨hs, hc⟩, h⟩ := List.forall_mem_cons.1 h
    rw [after_cons, next, if_neg hs, if_neg hc, ih h]

theorem after_comment (h : ∀ c ∈ cs, c ≠ '\n') : comment.after cs = .comment := by
  induction cs with
  | nil => rfl
  | cons c cs ih =>
    obtain ⟨hc, h⟩ := List.forall_mem_cons.1 h
    rw [after_cons, next, if_neg hc, ih h]

end Mode

namespace Lexeme

variable {c q : Char} {cs rest : List Char} {kind : LexemeKind} {n : Nat}

theorem after_stringRest (h : stringRest cs = some n) :
    Mode.string.after cs = Mode.plain.after (cs.drop n) := by
  fun_induction stringRest cs generalizing n with
  | case1 c cs ih =>
    obtain ⟨m, hm, rfl⟩ := Option.map_eq_some_iff.1 h
    exact ih hm
  | case2 => cases h
  | case3 => cases h; rfl
  | case4 c cs hne hne' hq ih =>
    obtain ⟨m, hm, rfl⟩ := Option.map_eq_some_iff.1 h
    have hc : c ≠ '\\' := ne_backslash hne hne'
    rw [Mode.after_cons, Mode.next, if_neg hc, if_neg hq, List.drop_succ_cons, ih hm]
  | case5 => cases h

theorem after_string_ne (h : stringRest cs = none) : Mode.string.after cs ≠ .plain := by
  fun_induction stringRest cs with
  | case1 c cs ih => exact ih (Option.map_eq_none_iff.1 h)
  | case2 => decide
  | case3 => cases h
  | case4 c cs hne hne' hq ih =>
    have hc : c ≠ '\\' := ne_backslash hne hne'
    rw [Mode.after_cons, Mode.next, if_neg hc, if_neg hq]
    exact ih (Option.map_eq_none_iff.1 h)
  | case5 => decide

theorem stringRest_append (h : stringRest cs = some n) : stringRest (cs ++ rest) = some n := by
  fun_induction stringRest cs generalizing n with
  | case1 c cs ih =>
    obtain ⟨m, hm, rfl⟩ := Option.map_eq_some_iff.1 h
    simp [stringRest, ih hm]
  | case2 => cases h
  | case3 =>
    cases h
    rfl
  | case4 c cs hne hne' hq ih =>
    obtain ⟨m, hm, rfl⟩ := Option.map_eq_some_iff.1 h
    have hc : c ≠ '\\' := ne_backslash hne hne'
    rw [List.cons_append, stringRest_cons hc hq, ih hm]
    rfl
  | case5 => cases h

theorem stringRest_take (h : stringRest cs = some n) : stringRest (cs.take n) = some n := by
  fun_induction stringRest cs generalizing n with
  | case1 c cs ih =>
    obtain ⟨m, hm, rfl⟩ := Option.map_eq_some_iff.1 h
    simp [stringRest, ih hm]
  | case2 => cases h
  | case3 =>
    cases h
    rfl
  | case4 c cs hne hne' hq ih =>
    obtain ⟨m, hm, rfl⟩ := Option.map_eq_some_iff.1 h
    have hc : c ≠ '\\' := ne_backslash hne hne'
    rw [List.take_succ_cons, stringRest_cons hc hq, ih hm]
    rfl
  | case5 => cases h

theorem isCodeBlank_eq_false (h : ∀ n, first? c cs ≠ some (.blank, n)) :
    isCodeBlank c = false := by
  rw [Bool.eq_false_iff]
  exact fun hc => h _ (first?_blank hc)

theorem not_mem_of_first? {q : Char} (h : first? c cs = some (kind, n)) (hc : isCodeBlank c = false)
    (hs : c ≠ '"') (hh : c ≠ '#') (hq : Neutral q) (hp : q ≠ '.') : q ∉ cs.take n := by
  intro hd
  obtain ⟨before, behind, hcs⟩ := List.append_of_mem hd
  have hl : before.length < n := by
    have := congrArg List.length hcs
    simp only [List.length_take, List.length_append, List.length_cons] at this
    omega
  rw [← List.take_append_drop n cs, hcs, List.append_assoc, List.cons_append,
    first?_append hq (fun h => absurd h hp) hc hs hh] at h
  have := (starts_of_first? h).le
  omega

theorem not_breaks_of_first? (h : first? c cs = some (kind, n)) (hc : isCodeBlank c = false)
    (hs : c ≠ '"') (hh : c ≠ '#') : ∀ d ∈ cs.take n, ¬ Breaks d := by
  intro d hd hb
  refine not_mem_of_first? h hc hs hh hb.neutral ?_ hd
  rintro rfl
  rcases hb with h | h | h <;> cases h

theorem exists_takeWhile (p : Char → Bool) (cs : List Char) : ∃ run rest, cs = run ++ rest ∧
    cs.takeWhile p = run ∧ (∀ c ∈ run, p c) ∧ ∀ c ∈ rest.head?, p c = false := by
  refine ⟨cs.takeWhile p, cs.dropWhile p, List.takeWhile_append_dropWhile.symm, rfl,
    List.all_eq_true.1 List.all_takeWhile, fun c hc => ?_⟩
  have := List.head?_dropWhile_not p cs
  rw [Option.mem_def.1 hc] at this
  simpa using this

theorem after_take (h : first? c cs = some (kind, n)) : Mode.plain.after (c :: cs.take n) = .plain ∨
    kind = .comment ∧ Mode.plain.after (c :: cs.take n) = .comment ∧
      ∀ d ∈ (cs.drop n).head?, d = '\n' := by
  by_cases hs : c = '"'
  · subst hs
    rw [first?_quote] at h
    obtain ⟨m, hm, h⟩ := Option.map_eq_some_iff.1 h
    cases h
    have hdrop : (cs.take n).drop n = [] := List.drop_eq_nil_of_le (List.length_take_le n cs)
    exact .inl ((after_stringRest (stringRest_take hm)).trans (by rw [hdrop, Mode.after_nil]))
  by_cases hh : c = '#'
  · subst hh
    rw [first?_hash] at h
    cases h
    obtain ⟨run, rest, rfl, hrun, hr, hhead⟩ := exists_takeWhile (· ≠ '\n') cs
    rw [hrun, List.drop_left, List.take_left]
    refine .inr ⟨rfl, Mode.after_comment (by simpa using hr), fun d hd => ?_⟩
    simpa using hhead d hd
  refine .inl (Mode.after_plain (List.forall_mem_cons.2 ⟨⟨hs, hh⟩, fun d hd => ?_⟩))
  cases hc : isCodeBlank c with
  | false =>
    have := not_breaks_of_first? h hc hs hh d hd
    exact ⟨fun h => this (.inr (.inl h)), fun h => this (.inr (.inr h))⟩
  | true =>
    rw [first?_blank hc] at h
    cases h
    obtain ⟨run, rest, rfl, hrun, hr, -⟩ := exists_takeWhile isCodeBlank cs
    rw [hrun, List.take_left] at hd
    constructor <;> rintro rfl <;> exact absurd (hr _ hd) (by decide)

theorem after_first? (h : first? c cs = some (kind, n)) :
    Mode.plain.after (c :: cs) = Mode.plain.after (cs.drop n) ∨
      kind = .comment ∧ cs.drop n = [] ∧ Mode.plain.after (c :: cs) = .comment := by
  have hsplit : Mode.plain.after (c :: cs) =
      (Mode.plain.after (c :: cs.take n)).after (cs.drop n) := by
    rw [← Mode.after_append, List.cons_append, List.take_append_drop]
  obtain hplain | ⟨hk, hcomment, hhead⟩ := after_take h
  · exact .inl (by rw [hsplit, hplain])
  · rw [hsplit, hcomment]
    cases hrest : cs.drop n with
    | nil => exact .inr ⟨hk, rfl, rfl⟩
    | cons d rest =>
      obtain rfl := hhead d (by rw [hrest]; rfl)
      exact .inl rfl

theorem first?_append_blank (h : Mode.plain.after (c :: cs) = .plain) (hc : isCodeBlank c = false) :
    first? c (cs ++ ' ' :: rest) = first? c cs := by
  by_cases hs : c = '"'
  · subst hs
    rw [first?_quote, first?_quote]
    cases hr : stringRest cs with
    | none => exact absurd h (after_string_ne hr)
    | some n => rw [stringRest_append hr]
  by_cases hh : c = '#'
  · subst hh
    rw [first?_hash, first?_hash]
    obtain ⟨run, more, rfl, hrun, hr, hhead⟩ := exists_takeWhile (· ≠ '\n') cs
    cases more with
    | nil =>
      rw [List.append_nil] at h
      exact absurd (h.symm.trans (Mode.after_comment (by simpa using hr))) (by decide)
    | cons d more =>
      obtain rfl : d = '\n' := by simpa using hhead
      rw [hrun, List.append_assoc, List.cons_append, List.takeWhile_append_of_pos hr]
      simp
  exact first?_append (neutral_of_mem (by decide)) (Breaks.detached (.inl rfl)) hc hs hh

end Lexeme

namespace Lexed

variable {line : Int} {c : Char} {cs rest : List Char} {kind : LexemeKind} {n : Nat}

def tokensAt? (line : Int) (cs : List Char) : Option (List Token) :=
  let lexed := scan 0 line cs
  if lexed.rejected.isNone then some lexed.tokens else none

@[simp] theorem tokensAt?_nil : tokensAt? line [] = some [] := rfl

theorem tokensAt?_none (h : Lexeme.first? c cs = none) : tokensAt? line (c :: cs) = none := by
  rw [tokensAt?, scan_none h]
  rfl

theorem tokensAt?_some (h : Lexeme.first? c cs = some (kind, n)) : tokensAt? line (c :: cs) =
    (tokensAt? (lineBehind line (c :: cs.take n)) (cs.drop n)).map fun ts =>
      (Lexeme.token? ⟨kind, String.ofList (c :: cs.take n), line⟩).toList ++ ts := by
  simp only [tokensAt?, scan_some h, Lexed.tokens, List.filterMap_cons]
  split
  · cases Lexeme.token? ⟨kind, String.ofList (c :: cs.take n), line⟩ <;> rfl
  · rfl

theorem scan_blank (hc : isCodeBlank c) :
    (scan 0 line (c :: cs)).tokens = (scan 0 (lineAfter line c) cs).tokens ∧
      (scan 0 line (c :: cs)).rejected = (scan 0 (lineAfter line c) cs).rejected := by
  have hrun (line : Int) {c : Char} (hc : isCodeBlank c) {run rest : List Char}
      (hr : (run ++ rest).takeWhile isCodeBlank = run) :
      (scan 0 line (c :: (run ++ rest))).tokens =
          (scan 0 (lineBehind line (c :: run)) rest).tokens ∧
        (scan 0 line (c :: (run ++ rest))).rejected =
          (scan 0 (lineBehind line (c :: run)) rest).rejected := by
    rw [scan_some (Lexeme.first?_blank hc), hr, List.take_left, List.drop_left]
    exact ⟨rfl, rfl⟩
  obtain ⟨run, rest, rfl, hr, hall, -⟩ := Lexeme.exists_takeWhile isCodeBlank cs
  rw [(hrun line hc hr).1, (hrun line hc hr).2, lineBehind_cons]
  cases run with
  | nil => simp
  | cons d run =>
    obtain ⟨hd, -⟩ := List.forall_mem_cons.1 hall
    rw [List.cons_append, List.takeWhile_cons_of_pos hd] at hr
    have hrest := hrun (lineAfter line c) hd (List.cons.inj hr).2
    exact ⟨hrest.1.symm, hrest.2.symm⟩

theorem scan_blanks (hb : ∀ c ∈ cs, isCodeBlank c) :
    (scan 0 line (cs ++ rest)).tokens = (scan 0 (lineBehind line cs) rest).tokens ∧
      (scan 0 line (cs ++ rest)).rejected = (scan 0 (lineBehind line cs) rest).rejected := by
  induction cs generalizing line with
  | nil => simp
  | cons c cs ih =>
    obtain ⟨hc, hb⟩ := List.forall_mem_cons.1 hb
    rw [List.cons_append, (scan_blank hc).1, (scan_blank hc).2, lineBehind_cons]
    exact ih hb

theorem tokensAt?_blank (hc : isCodeBlank c) :
    tokensAt? line (c :: cs) = tokensAt? (lineAfter line c) cs := by
  simp only [tokensAt?, scan_blank hc]

theorem tokensAt?_blanks (hb : ∀ c ∈ cs, isCodeBlank c) :
    tokensAt? line (cs ++ rest) = tokensAt? (lineBehind line cs) rest := by
  simp only [tokensAt?, scan_blanks hb]

theorem tokensAt?_append (h : Mode.plain.after cs = .plain) :
    tokensAt? line (cs ++ ' ' :: rest) = (tokensAt? line cs).bind fun ts =>
      (tokensAt? (lineBehind line cs) (' ' :: rest)).map (ts ++ ·) := by
  induction line, cs using scan_induction with
  | nil line => simp
  | none line c cs hf =>
    have hc : isCodeBlank c = false :=
      Lexeme.isCodeBlank_eq_false fun _ hb => nomatch hf.symm.trans hb
    rw [tokensAt?_none hf, List.cons_append, tokensAt?_none]
    · rfl
    · rw [Lexeme.first?_append_blank h hc, hf]
  | some line c cs kind n hf ih =>
    have hd : Mode.plain.after (cs.drop n) = .plain := by
      obtain hd | ⟨-, -, hd⟩ := Lexeme.after_first? hf
      · rw [← hd, h]
      · rw [h] at hd
        cases hd
    have hn := (Lexeme.starts_of_first? hf).le
    cases hc : isCodeBlank c with
    | true =>
      rw [Lexeme.first?_blank hc] at hf
      cases hf
      obtain ⟨run, more, rfl, hrun, hall, -⟩ := Lexeme.exists_takeWhile isCodeBlank cs
      rw [hrun, List.drop_left, List.take_left] at ih
      rw [hrun, List.drop_left] at hd
      have hb : ∀ d ∈ c :: run, isCodeBlank d := List.forall_mem_cons.2 ⟨hc, hall⟩
      rw [← List.cons_append, List.append_assoc, tokensAt?_blanks hb, tokensAt?_blanks hb, ih hd,
        lineBehind_append]
    | false =>
      rw [List.cons_append, tokensAt?_some ((Lexeme.first?_append_blank h hc).trans hf),
        tokensAt?_some hf, List.take_append_of_le_length hn, List.drop_append_of_le_length hn,
        ih hd, ← lineBehind_append, List.cons_append, List.take_append_drop]
      cases tokensAt? (lineBehind line (c :: cs.take n)) (cs.drop n) with
      | none => rfl
      | some ts => simp [Function.comp_def]

def solid (lexed : Lexed) : List Lexeme := lexed.lexemes.filter fun l => l.kind ≠ .blank

theorem solid_some (h : Lexeme.first? c cs = some (kind, n)) : (scan 0 line (c :: cs)).solid =
    (if kind = .blank then [] else [⟨kind, String.ofList (c :: cs.take n), line⟩]) ++
      (scan 0 (lineBehind line (c :: cs.take n)) (cs.drop n)).solid := by
  rw [scan_some h, solid, List.filter_cons]
  by_cases hk : kind = .blank <;> simp [hk, solid]

theorem after_of_solid (hr : (scan 0 line cs).rejected = none)
    (hl : ∀ l ∈ (scan 0 line cs).solid.getLast?, l.kind ≠ .comment) :
    Mode.plain.after cs = .plain := by
  induction line, cs using scan_induction with
  | nil line => rfl
  | none line c cs hf =>
    rw [scan_none hf] at hr
    cases hr
  | some line c cs kind n hf ih =>
    rw [solid_some hf, List.getLast?_append] at hl
    rw [scan_some hf] at hr
    have hrest : ∀ l ∈ (scan 0 (lineBehind line (c :: cs.take n)) (cs.drop n)).solid.getLast?,
        l.kind ≠ .comment := fun l h => hl l (by simp [Option.mem_def.1 h])
    obtain h | ⟨rfl, hd, h⟩ := Lexeme.after_first? hf
    · rw [h, ih hr hrest]
    · rw [hd] at hl
      exact absurd rfl (hl _ rfl)

end Lexed

/-- Code that does not end in a string or comment. -/
def EndsPlain (code : String) : Prop := Mode.plain.after code.toList = .plain

theorem EndsPlain.append {code more : String} (hc : EndsPlain code) (hm : EndsPlain more) :
    EndsPlain (code ++ more) := by
  rw [EndsPlain, String.toList_append, Mode.after_append, hc, hm]

theorem tokensAt?_of_tokens? (code : String) : tokens? code = Lexed.tokensAt? 1 code.toList := rfl

theorem endsPlain_of_tokens? {code : String} (ht : (tokens? code).isSome)
    (hc : endsInComment code = false) : EndsPlain code := by
  have hr : (Lexed.scan 0 1 code.toList).rejected = none := by
    unfold tokens? at ht
    dsimp only at ht
    split at ht
    · next h => exact Option.isNone_iff_eq_none.1 h
    · cases ht
  refine Lexed.after_of_solid hr fun l hl hk => ?_
  have hany : ((Lexed.scan 0 1 code.toList).solid.getLast?.any (·.kind = .comment)) = true := by
    simp [Option.mem_def.1 hl, hk]
  have : endsInComment code = true := by
    rw [← hany]
    exact congrArg (· && _) (Option.isNone_iff_eq_none.2 hr)
  rw [hc] at this
  cases this

def Token.spelling (t : Token) : Terminal × String := (t.terminal, t.text)

theorem Lexeme.spelling_token? (kind : LexemeKind) (text : String) (line line' : Int) :
    (token? ⟨kind, text, line⟩).map Token.spelling =
      (token? ⟨kind, text, line'⟩).map Token.spelling := by
  unfold token?
  dsimp only
  split <;> rfl

namespace Lexed

theorem spelling_some {c : Char} {cs : List Char} {kind : LexemeKind} {n : Nat}
    (h : Lexeme.first? c cs = some (kind, n)) (line : Int) :
    (tokensAt? line (c :: cs)).map (·.map Token.spelling) =
      ((tokensAt? (lineBehind line (c :: cs.take n)) (cs.drop n)).map
        (·.map Token.spelling)).map fun us =>
          ((Lexeme.token? ⟨kind, String.ofList (c :: cs.take n), line⟩).map
            Token.spelling).toList ++ us := by
  rw [tokensAt?_some h]
  cases Lexeme.token? ⟨kind, String.ofList (c :: cs.take n), line⟩ <;>
    simp [Function.comp_def]

theorem spelling_tokensAt? (line line' : Int) (cs : List Char) :
    (tokensAt? line cs).map (·.map Token.spelling) =
      (tokensAt? line' cs).map (·.map Token.spelling) := by
  induction line, cs using scan_induction generalizing line' with
  | nil line => rfl
  | none line c cs hf => rw [tokensAt?_none hf, tokensAt?_none hf]
  | some line c cs kind n hf ih =>
    rw [spelling_some hf, spelling_some hf, ih, Lexeme.spelling_token? kind _ line line']

end Lexed

end EmbeddedTemplate.Code
