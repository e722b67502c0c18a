import EmbeddedTemplate.Code.Printer
import EmbeddedTemplate.Proofs.Code.Languages
import EmbeddedTemplate.Proofs.Code.Splitting

namespace EmbeddedTemplate.Code

open Lexed
open scoped Computability

def shift (n : Nat) (cs : List Char) : List Char :=
  cs.flatMap fun c => if c = '\n' then '\n' :: List.replicate n ' ' else [c]

variable {n : Nat} {cs ds rest : List Char} {c : Char} {line : Int}

@[simp] theorem shift_nil : shift n [] = [] := rfl

theorem shift_zero (cs : List Char) : shift 0 cs = cs := by
  induction cs with
  | nil => rfl
  | cons c cs ih =>
    rw [shift, List.flatMap_cons, ← shift, ih]
    split
    · next h =>
      rw [h]
      rfl
    · rfl

theorem shift_append (n : Nat) (cs ds : List Char) :
    shift n (cs ++ ds) = shift n cs ++ shift n ds := List.flatMap_append

theorem shift_cons (n : Nat) (h : c ≠ '\n') (cs : List Char) :
    shift n (c :: cs) = c :: shift n cs := by
  rw [shift, List.flatMap_cons, if_neg h]
  rfl

theorem head?_shift (n : Nat) (cs : List Char) : (shift n cs).head? = cs.head? := by
  cases cs with
  | nil => rfl
  | cons c cs =>
    rw [shift, List.flatMap_cons]
    split
    · next h =>
      rw [h]
      rfl
    · rfl

theorem shift_of_not_mem (h : '\n' ∉ cs) : shift n cs = cs := by
  induction cs with
  | nil => rfl
  | cons c cs ih =>
    obtain ⟨hc, hcs⟩ := not_or.1 (mt List.mem_cons.2 h)
    rw [shift_cons n (Ne.symm hc), ih hcs]

theorem shift_break (n : Nat) (cs : List Char) :
    shift n ('\n' :: cs) = '\n' :: (List.replicate n ' ' ++ shift n cs) := rfl

theorem shift_shift (m n : Nat) (cs : List Char) : shift n (shift m cs) = shift (n + m) cs := by
  induction cs with
  | nil => rfl
  | cons c cs ih =>
    by_cases hc : c = '\n'
    · subst hc
      have hblanks : '\n' ∉ List.replicate m ' ' := by simp
      rw [shift_break, shift_break, shift_break, shift_append, shift_of_not_mem hblanks, ih,
        ← List.append_assoc, ← List.replicate_add]
    · rw [shift_cons m hc, shift_cons n hc, shift_cons (n + m) hc, ih]

theorem shift_indent (n : Nat) (s : String) :
    shift n (Printer.indent s).toList = ' ' :: ' ' :: shift (n + 2) s.toList := by
  rw [← shift_shift 2 n, Printer.indent, String.toList_ofList]
  rfl

/-- What may stand behind an expression: it leaves the last token of the expression as it is. -/
def Stops : List Char → Prop
  | [] => True
  | c :: rest => c ∈ [' ', '\n', ',', ';', '(', ')', '[', ']', '\x7d'] ∨
      c = '.' ∧ ∃ d ∈ rest.head?, isNameStart d

theorem Stops.neutral (h : Stops (c :: rest)) : Neutral c := by
  obtain h | ⟨rfl, -⟩ := h
  · refine neutral_of_mem ?_
    fin_cases h <;> decide
  · exact neutral_of_mem (by decide)

theorem Stops.detached (h : Stops (c :: rest)) : Detached c rest := by
  rintro rfl d hd
  obtain h | ⟨-, e, he, hn⟩ := h
  · exact absurd h (by decide)
  · cases Option.mem_unique hd he
    exact isDigit_isUpper_of_isNameStart hn

theorem Lexeme.first?_stops {x : Terminal} (h : first? c cs = some (.terminal x, cs.length))
    (hs : Stops rest) : first? c (cs ++ rest) = some (.terminal x, cs.length) := by
  cases rest with
  | nil => rwa [List.append_nil]
  | cons q rest =>
    by_cases hquote : c = '"'
    · subst hquote
      rw [first?_quote] at h ⊢
      obtain ⟨m, hm, hx⟩ := Option.map_eq_some_iff.1 h
      rw [stringRest_append hm]
      exact congrArg some hx
    by_cases hhash : c = '#'
    · subst hhash
      rw [first?_hash] at h
      cases h
    cases hb : isCodeBlank c with
    | true =>
      rw [first?_blank hb] at h
      cases h
    | false => rw [first?_append hs.neutral hs.detached hb hquote hhash, h]

/-- The text alone is one token of the class. -/
def IsToken (x : Terminal) (s : String) : Prop := tokens? s = some [⟨x, s, 1⟩]

instance (x : Terminal) (s : String) : Decidable (IsToken x s) :=
  inferInstanceAs (Decidable (_ = _))

theorem Lexed.length_text_le {line : Int} {t : Token} (h : t ∈ (scan 0 line cs).tokens) :
    t.text.toList.length ≤ cs.length := by
  obtain ⟨l, hl, ht⟩ := List.mem_filterMap.1 h
  obtain ⟨before, d, rest, m, rfl, -, htext, -⟩ := mem_scan hl
  rw [(Lexeme.token?_eq_some ht).1, htext, String.toList_ofList]
  simp only [List.length_append, List.length_cons, List.length_take]
  omega

theorem Lexeme.token?_line {kind : LexemeKind} {x : Terminal} {s : String} {line : Int}
    (h : token? ⟨kind, s, line⟩ = some ⟨x, s, line⟩) (line' : Int) :
    token? ⟨kind, s, line'⟩ = some ⟨x, s, line'⟩ := by
  unfold token? at h ⊢
  dsimp only at h ⊢
  split at h <;> simp_all

theorem IsToken.exists_first? {x : Terminal} {s : String} (h : IsToken x s) :
    ∃ c cs k, s.toList = c :: cs ∧ Lexeme.first? c cs = some (.terminal k, cs.length) ∧
      ∀ line, Lexeme.token? ⟨.terminal k, s, line⟩ = some ⟨x, s, line⟩ := by
  rw [IsToken, tokensAt?_of_tokens?] at h
  cases hs : s.toList with
  | nil =>
    rw [hs] at h
    cases h
  | cons c cs =>
    rw [hs] at h
    cases hf : Lexeme.first? c cs with
    | none =>
      rw [tokensAt?_none hf] at h
      cases h
    | some r =>
      obtain ⟨kind, m⟩ := r
      have hm := (Lexeme.starts_of_first? hf).le
      rw [tokensAt?_some hf] at h
      obtain ⟨later, hlater, h⟩ := Option.map_eq_some_iff.1 h
      cases ht : Lexeme.token? ⟨kind, String.ofList (c :: cs.take m), 1⟩ with
      | none =>
        -- No token behind a blank is as long as the whole text.
        rw [ht] at h
        obtain rfl : later = [_] := h
        have hmem : (⟨x, s, 1⟩ : Token) ∈
            (scan 0 (lineBehind 1 (c :: cs.take m)) (cs.drop m)).tokens := by
          unfold tokensAt? at hlater
          dsimp only at hlater
          split at hlater
          · rw [Option.some.inj hlater]
            exact List.mem_singleton_self _
          · cases hlater
        have := length_text_le hmem
        rw [hs, List.length_drop, List.length_cons] at this
        omega
      | some t =>
        rw [ht] at h
        obtain ⟨rfl, rfl⟩ : t = ⟨x, s, 1⟩ ∧ later = [] := by simpa using h
        have htext := congrArg String.toList (Lexeme.token?_eq_some ht).1
        rw [hs, String.toList_ofList] at htext
        have hlen := congrArg List.length (List.cons.inj htext).2
        rw [List.length_take] at hlen
        obtain rfl : m = cs.length := by omega
        cases kind with
        | blank | comment => cases ht
        | terminal k =>
          rw [List.take_length, ← hs, String.ofList_toList] at ht
          exact ⟨c, cs, k, rfl, hf, Lexeme.token?_line ht⟩

/--
On whatever line the text stands, and however it is indented, it is a run of tokens of the language,
if what stands behind it is as demanded.
-/
def Spelled (follow : List Char → Prop) (cs : List Char) (L : Language Token) : Prop :=
  ∀ n line rest, follow rest → ∃ ts ∈ L, tokensAt? line (shift n cs ++ rest) =
    (tokensAt? (lineBehind line (shift n cs)) rest).map (ts ++ ·)

variable {F G : List Char → Prop} {L M : Language Token}

namespace Spelled

theorem mono (h : Spelled F cs L) (hL : ∀ ts ∈ L, ts ∈ M) : Spelled F cs M := by
  intro n line rest hr
  obtain ⟨ts, hts, h⟩ := h n line rest hr
  exact ⟨ts, hL ts hts, h⟩

theorem follow (h : Spelled F cs L) (hF : ∀ rest, G rest → F rest) : Spelled G cs L :=
  fun n line rest hr => h n line rest (hF rest hr)

theorem append (h₁ : Spelled F cs L) (h₂ : Spelled G ds M)
    (hF : ∀ n rest, G rest → F (shift n ds ++ rest)) : Spelled G (cs ++ ds) (L * M) := by
  intro n line rest hr
  obtain ⟨ts, hts, h₁⟩ := h₁ n line _ (hF n rest hr)
  obtain ⟨us, hus, h₂⟩ := h₂ n (lineBehind line (shift n cs)) rest hr
  refine ⟨ts ++ us, Language.append_mem_mul hts hus, ?_⟩
  rw [shift_append, List.append_assoc, h₁, h₂, ← lineBehind_append, Option.map_map]
  simp [Function.comp_def]

end Spelled

theorem spelled_nil : Spelled F [] 1 := by
  intro n line rest _
  refine ⟨[], rfl, ?_⟩
  simp

theorem shift_blanks (h : ∀ c ∈ cs, isCodeBlank c) : ∀ c ∈ shift n cs, isCodeBlank c := by
  intro c hc
  obtain ⟨d, hd, hc⟩ := List.mem_flatMap.1 hc
  split at hc
  · obtain rfl | hc := List.mem_cons.1 hc
    · rfl
    · rw [(List.mem_replicate.1 hc).2]
      rfl
  · rw [List.mem_singleton.1 hc]
    exact h d hd

theorem spelled_blanks (h : ∀ c ∈ cs, isCodeBlank c) : Spelled F cs 1 := by
  intro n line rest _
  refine ⟨[], rfl, ?_⟩
  rw [tokensAt?_blanks (shift_blanks h)]
  simp

def spelt (x : Terminal) (s : String) : Language Token := {ts | ∃ line, ts = [⟨x, s, line⟩]}

theorem spelled_lexeme {x k : Terminal} (hn : '\n' ∉ c :: cs)
    (hf : ∀ rest, F rest → Lexeme.first? c (cs ++ rest) = some (.terminal k, cs.length))
    (ht : ∀ line, Lexeme.token? ⟨.terminal k, String.ofList (c :: cs), line⟩ =
      some ⟨x, String.ofList (c :: cs), line⟩) :
    Spelled F (c :: cs) (spelt x (String.ofList (c :: cs))) := by
  intro n line rest hr
  refine ⟨_, ⟨line, rfl⟩, ?_⟩
  rw [shift_of_not_mem hn, List.cons_append, tokensAt?_some (hf rest hr), List.take_left,
    List.drop_left, ht]
  rfl

theorem IsToken.not_mem_break {x : Terminal} {s : String} (h : IsToken x s) (hx : x ≠ .string) :
    '\n' ∉ s.toList := by
  obtain ⟨c, cs, k, hs, hf, ht⟩ := h.exists_first?
  have hblank : isCodeBlank c = false :=
    Lexeme.isCodeBlank_eq_false fun _ hb => nomatch hf.symm.trans hb
  have hquote : c ≠ '"' := by
    rintro rfl
    rw [Lexeme.first?_quote] at hf
    obtain ⟨m, -, hf⟩ := Option.map_eq_some_iff.1 hf
    cases hf
    have hstring := ht 1
    simp only [Lexeme.token?, Option.some.injEq, Token.mk.injEq] at hstring
    exact hx hstring.1.symm
  have hhash : c ≠ '#' := by
    rintro rfl
    rw [Lexeme.first?_hash] at hf
    cases hf
  have hcs := Lexeme.not_mem_of_first? hf hblank hquote hhash (q := '\n')
    (neutral_of_mem (by decide)) (by decide)
  rw [hs, List.mem_cons, not_or]
  rw [List.take_length] at hcs
  refine ⟨?_, hcs⟩
  rintro rfl
  cases hblank

theorem IsToken.spelled {x : Terminal} {s : String} (h : IsToken x s) (hx : x ≠ .string) :
    Spelled Stops s.toList (spelt x s) := by
  have hn := h.not_mem_break hx
  obtain ⟨c, cs, k, hs, hf, ht⟩ := h.exists_first?
  obtain rfl : s = String.ofList (c :: cs) := by rw [← hs, String.ofList_toList]
  rw [String.toList_ofList] at hn ⊢
  exact spelled_lexeme hn (fun rest hr => Lexeme.first?_stops hf hr) ht

def Sign.isMark : Sign → Bool
  | .leftParen | .rightParen | .leftBracket | .rightBracket | .leftBrace | .rightBrace => true
  | .comma | .semicolon | .atSign | .dot => true
  | _ => false

theorem spelled_sign {s : Sign} (hf : ∀ rest, F rest → ∀ c cs, s.chars = c :: cs →
    Lexeme.first? c (cs ++ rest) = some (.terminal (.sign s), cs.length)) :
    Spelled F s.chars (spelt (.sign s) s.text) := by
  have hn : '\n' ∉ s.chars := by cases s <;> decide
  have hne : s.chars ≠ [] := by cases s <;> simp [Sign.chars]
  obtain ⟨c, cs, hcs⟩ := List.exists_cons_of_ne_nil hne
  rw [Sign.text]
  rw [hcs] at hn ⊢
  exact spelled_lexeme hn (fun rest hr => hf rest hr c cs hcs) fun _ => rfl

theorem spelled_mark {s : Sign} (hs : s.isMark) :
    Spelled F s.chars (spelt (.sign s) s.text) := by
  refine spelled_sign fun rest _ c cs h => ?_
  cases s <;> cases hs <;> cases h <;> cases rest <;> rfl

def Sign.isPrefix : Sign → Bool
  | .minus | .plus | .bang => true
  | _ => false

/-- With this character behind it the sign is another one. -/
def Sign.joins : Sign → Char → Bool
  | .minus, d => d = '-' || d = '>'
  | .plus, d => d = '+'
  | .bang, d => d = '='
  | _, _ => false

theorem ofChars?_front {s : Sign} (hs : s.isPrefix) (hr : ∀ d ∈ rest.head?, s.joins d = false) :
    Sign.ofChars? (s.chars ++ rest) = some s := by
  cases rest with
  | nil => cases s <;> rfl
  | cons d rest =>
    have := hr d rfl
    cases s <;> cases hs <;>
      simp_all [Sign.joins, Sign.ofChars?, Sign.all, Sign.chars, List.isPrefixOf] <;> grind

theorem Lexeme.first?_sign (hd : c.isDigit = false) (hn : isNameStart c = false)
    (hu : c.isUpper = false) (ha : c ≠ ':') (hq : c ≠ '"') (hb : isCodeBlank c = false)
    (hh : c ≠ '#') : first? c cs =
      (Sign.ofChars? (c :: cs)).map fun s => (.terminal (.sign s), s.chars.length - 1) := by
  simp [first?, float?_eq_none hd, key?_eq_none hn, modulePath?_eq_none hu, name?_eq_none hn,
    atom?_eq_none ha, string?_eq_none hq, int?_eq_none hd, blank?, comment?, hb, hh]

theorem first?_front {s : Sign} (hs : s.isPrefix) (h : s.chars = c :: cs)
    (hr : ∀ d ∈ rest.head?, s.joins d = false) :
    Lexeme.first? c (cs ++ rest) = some (.terminal (.sign s), cs.length) := by
  have hsign := ofChars?_front hs hr
  have hc : c.isDigit = false ∧ isNameStart c = false ∧ c.isUpper = false ∧ c ≠ ':' ∧ c ≠ '"' ∧
      isCodeBlank c = false ∧ c ≠ '#' ∧ s.chars.length - 1 = cs.length := by
    cases s <;> cases hs <;> cases h <;> decide
  obtain ⟨hd, hn, hu, ha, hq, hb, hh, hl⟩ := hc
  rw [h, List.cons_append] at hsign
  rw [Lexeme.first?_sign hd hn hu ha hq hb hh, hsign, Option.map_some, hl]

theorem spelled_front {s : Sign} (hs : s.isPrefix) :
    Spelled (fun rest => ∀ d ∈ rest.head?, s.joins d = false) s.chars (spelt (.sign s) s.text) :=
  spelled_sign fun _ hr _ _ hcs => first?_front hs hcs hr

theorem isToken_of_first? {x : Terminal} (h : Lexeme.first? c cs = some (.terminal x, cs.length))
    (hx : x ≠ .name) : IsToken x (String.ofList (c :: cs)) := by
  have ht : Lexeme.token? ⟨.terminal x, String.ofList (c :: cs), 1⟩ =
      some ⟨x, String.ofList (c :: cs), 1⟩ := by
    cases x <;> first | rfl | exact absurd rfl hx
  rw [IsToken, tokensAt?_of_tokens?, String.toList_ofList, tokensAt?_some h, List.take_length,
    List.drop_length, ht]
  rfl

theorem isToken_digits (n : Nat) : IsToken .int (String.ofList (Nat.toDigits 10 n)) := by
  obtain ⟨d, ds, hn⟩ := List.exists_cons_of_ne_nil (Nat.toDigits_ne_nil (n := n) (b := 10))
  have hdigit : ∀ c ∈ d :: ds, c.isDigit := fun c hc =>
    Nat.isDigit_of_mem_toDigits (by decide) (by decide) (hn ▸ hc)
  obtain ⟨hd, hds⟩ := List.forall_mem_cons.1 hdigit
  have hmem : d ∉ [' ', '\t', '\x0c', '\r', '\n', '"', '#'] := by
    intro h
    fin_cases h <;> cases hd
  have hblank : isCodeBlank d = false := by simp_all [isCodeBlank]
  have hf : Lexeme.first? d (ds ++ ')' :: []) = some (.terminal .int, ds.length) :=
    Lexeme.first?_digits hd hds
  rw [Lexeme.first?_append (neutral_of_mem (by decide)) (by rintro ⟨⟩) hblank (by simp_all)
    (by simp_all)] at hf
  rw [hn]
  exact isToken_of_first? hf (by decide)

theorem isToken_sign (s : Sign) : IsToken (.sign s) s.text := by
  cases s <;> decide

theorem isToken_word (w : Word) : IsToken (.word w) w.text := by
  cases w <;> decide

theorem spelled?_eq_some {name : String} {x : Terminal} (h : spelled? name = some x) :
    IsToken x name ∧ x.text? = some name := by
  have htext : x.text? = some name := by simpa using List.find?_some h
  have hmem := List.mem_of_find?_eq_some h
  obtain hx | hx := List.mem_append.1 hmem
  · obtain ⟨w, -, rfl⟩ := List.mem_map.1 hx
    cases htext
    exact ⟨isToken_word w, rfl⟩
  · obtain ⟨s, -, rfl⟩ := List.mem_map.1 hx
    cases htext
    exact ⟨isToken_sign s, rfl⟩

theorem IsToken.unique {x y : Terminal} {s : String} (hx : IsToken x s) (hy : IsToken y s) :
    x = y := by
  rw [IsToken] at hx hy
  rw [hx] at hy
  cases hy
  rfl

theorem IsToken.spelled?_eq_none {x : Terminal} {s : String} (h : IsToken x s)
    (hx : x.text? = none) : spelled? s = none := by
  by_contra hs
  obtain ⟨y, hy⟩ := Option.ne_none_iff_exists'.1 hs
  obtain ⟨hy, htext⟩ := spelled?_eq_some hy
  rw [← h.unique hy, hx] at htext
  cases htext

end EmbeddedTemplate.Code
