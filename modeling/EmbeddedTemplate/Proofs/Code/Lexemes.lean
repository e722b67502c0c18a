import EmbeddedTemplate.Proofs.Code.Lexing
import Mathlib.Tactic.FinCases

/-!
The lexemes that code starts with. One that is no string, comment or run of blanks ends in front of
the first character that breaks lexemes, and does not depend on what stands behind it.
-/

namespace EmbeddedTemplate.Code

def Breaks (q : Char) : Prop := q = ' ' ∨ q = '"' ∨ q = '#'

/-- What keeps numbers and signs from going over a character or depending on what is behind it. -/
structure Inert (q : Char) : Prop where
  digitRest : isDigitRest q = false
  digit : q.isDigit = false
  not_mem : q ∉ [':', '+', '-', 'e', 'E', '_', '=']
  not_mem_sign : ∀ s : Sign, q ∉ s.chars.drop 1

/-- What keeps lexemes from going over a character, and from depending on what is behind it. -/
structure Neutral (q : Char) : Prop extends Inert q where
  nameRest : isNameRest q = false
  nameMark : isNameMark q = false
  upper : q.isUpper = false
  alpha : q.isAlpha = false

theorem neutral_of_mem {q : Char} (h : q ∈ [' ', '\n', '"', '#', ',', ';', '.', '(', ')', '[',
    ']', '\x7d']) : Neutral q := by
  fin_cases h <;> exact ⟨⟨by decide, by decide, by decide, fun s => by cases s <;> decide⟩,
    by decide, by decide, by decide, by decide⟩

def Detached (q : Char) (rest : List Char) : Prop :=
  q = '.' → ∀ d ∈ rest.head?, d.isDigit = false ∧ d.isUpper = false

theorem Breaks.detached {q : Char} {rest : List Char} (h : Breaks q) : Detached q rest := by
  rintro rfl
  rcases h with h | h | h <;> cases h

theorem Breaks.neutral {q : Char} (h : Breaks q) : Neutral q := by
  rcases h with rfl | rfl | rfl <;> exact neutral_of_mem (by decide)

theorem isDigit_isUpper_of_isNameStart {c : Char} (h : isNameStart c) :
    c.isDigit = false ∧ c.isUpper = false := by
  by_cases hc : c = '_'
  · subst hc
    decide
  · have hlower : c.isLower = (decide (c.val ≥ 'a'.val) && decide (c.val ≤ 'z'.val)) := rfl
    have hupper : c.isUpper = decide (c.val ≥ 'A'.val ∧ c.val ≤ 'Z'.val) := rfl
    simp only [isNameStart, Char.isDigit, hlower, hupper] at *
    grind

theorem isUpper_of_isDigit {c : Char} (h : c.isDigit) : c.isUpper = false := by
  have hupper : c.isUpper = decide (c.val ≥ 'A'.val ∧ c.val ≤ 'Z'.val) := rfl
  simp only [Char.isDigit, hupper] at *
  grind

namespace Lexeme

variable {q c : Char} {cs rest : List Char} {n : Nat}

theorem takeWhile_append_cons {p : Char → Bool} (h : p q = false) (cs rest : List Char) :
    (cs ++ q :: rest).takeWhile p = cs.takeWhile p := by
  rw [List.takeWhile_append, List.takeWhile_cons_of_neg (by simp [h])]
  split
  · next hl =>
    rw [List.append_nil, (List.takeWhile_prefix p).eq_of_length hl]
  · rfl

theorem drop_takeWhile_append (p : Char → Bool) (cs ds : List Char) :
    (cs ++ ds).drop (cs.takeWhile p).length = cs.drop (cs.takeWhile p).length ++ ds :=
  List.drop_append_of_le_length (List.takeWhile_prefix p).length_le

theorem exponent_append (h : Inert q) (cs : List Char) :
    exponent (cs ++ q :: rest) = exponent cs := by
  have hq := h.not_mem
  match cs with
  | [] => simp_all [exponent]
  | [e] => simp_all [exponent, h.digit]
  | e :: s :: cs =>
    have hd cs := takeWhile_append_cons h.digit cs rest
    have hd' := hd (s :: cs)
    simp only [List.cons_append] at hd'
    simp only [exponent, List.cons_append]
    split
    · simp only [List.drop_succ_cons, List.drop_zero, hd]
    · simp only [List.drop_zero, hd']

theorem float?_append (h : Inert q) (hp : Detached q rest) :
    float? c (cs ++ q :: rest) = float? c cs := by
  have hq := h.not_mem
  have hd := h.digit
  unfold float?
  dsimp only
  rw [takeWhile_append_cons h.digitRest, drop_takeWhile_append]
  generalize (cs.takeWhile isDigitRest).length = whole
  generalize cs.drop whole = ds
  cases c.isDigit with
  | false => rfl
  | true =>
    match ds with
    | [] =>
      by_cases hq : q = '.'
      · subst hq
        cases rest with
        | nil => rfl
        | cons d rest => simp [(hp rfl d rfl).1]
      · split <;> simp_all
    | [d] =>
      by_cases hd : d = '.'
      · subst hd; simp [h.digit]
      · split <;> simp_all
    | d :: e :: ds =>
      by_cases hd : d = '.'
      · subst hd
        simp only [List.cons_append]
        rw [takeWhile_append_cons h.digitRest, drop_takeWhile_append, exponent_append h]
      · split <;> split <;> simp_all

theorem nameRest_append (h : Neutral q) : nameRest (cs ++ q :: rest) = nameRest cs := by
  rw [nameRest, takeWhile_append_cons h.nameRest, nameRest]

theorem nameRest_le (cs : List Char) : nameRest cs ≤ cs.length :=
  (List.takeWhile_prefix _).length_le

theorem countP_take_append (h : Neutral q) (ds : List Char) :
    ((ds ++ q :: rest).take 1).countP isNameMark = (ds.take 1).countP isNameMark := by
  cases ds <;> simp [h.nameMark]

theorem key?_append (h : Neutral q) : key? c (cs ++ q :: rest) = key? c cs := by
  have hq := h.not_mem
  unfold key?
  dsimp only
  rw [nameRest_append h, List.drop_append_of_le_length (nameRest_le cs), countP_take_append h]
  have hle : nameRest cs + ((cs.drop (nameRest cs)).take 1).countP isNameMark ≤ cs.length := by
    have h₁ := List.countP_le_length (p := isNameMark) (l := (cs.drop (nameRest cs)).take 1)
    have := nameRest_le cs
    simp only [List.length_take, List.length_drop] at h₁
    omega
  rw [List.drop_append_of_le_length hle]
  generalize nameRest cs + _ = m
  cases isNameStart c with
  | false => rfl
  | true =>
    match cs.drop m with
    | [] => split <;> simp_all
    | [d] =>
      by_cases hd : d = ':'
      · subst hd
        split <;> simp_all
      · split <;> simp_all
    | d :: e :: ds => split <;> split <;> simp_all <;> grind

theorem pathRest_append (h : Neutral q) (hp : Detached q rest) (cs : List Char) :
    pathRest (cs ++ q :: rest) = pathRest cs := by
  have hq := h.not_mem
  have hu := h.upper
  have hn := h.nameRest
  fun_induction pathRest cs with
  | case1 c cs hc ih => simp [pathRest, hc, ih]
  | case2 c cs hc => simp [pathRest, hc]
  | case3 c cs hne hc ih =>
    have hc' : c ≠ '.' := by rintro rfl; revert hc; decide
    rw [List.cons_append, pathRest.eq_2 _ _ (by simp_all), if_pos hc, ih]
  | case4 c cs hne hc =>
    by_cases hd : c = '.'
    · subst hd
      cases cs with
      | nil => simp [pathRest, hu]
      | cons d cs => exact absurd rfl (hne d cs rfl)
    · rw [List.cons_append, pathRest.eq_2 _ _ (by simp_all), if_neg hc]
  | case5 =>
    by_cases hd : q = '.'
    · subst hd
      cases rest with
      | nil => rfl
      | cons d rest => simp [pathRest, (hp rfl d rfl).2]
    · rw [List.nil_append, pathRest.eq_2 _ _ (by simp_all), hn]
      rfl

theorem name?_append (h : Neutral q) : name? c (cs ++ q :: rest) = name? c cs := by
  have hq := h.not_mem
  unfold name?
  dsimp only
  rw [nameRest_append h, List.drop_append_of_le_length (nameRest_le cs)]
  match cs.drop (nameRest cs) with
  | [] => simp [h.nameMark]
  | [d] => simp_all [Ne.symm]
  | d :: e :: ds => simp

theorem atom?_append (h : Neutral q) : atom? c (cs ++ q :: rest) = atom? c cs := by
  have hq := h.not_mem
  cases cs with
  | nil => simp_all [atom?, h.alpha]
  | cons d cs =>
    simp only [atom?, List.cons_append]
    rw [nameRest_append h, List.drop_append_of_le_length (nameRest_le cs), countP_take_append h]

theorem modulePath?_append (h : Neutral q) (hp : Detached q rest) :
    modulePath? c (cs ++ q :: rest) = modulePath? c cs := by
  rw [modulePath?, pathRest_append h hp, modulePath?]

theorem int?_append (h : Inert q) : int? c (cs ++ q :: rest) = int? c cs := by
  rw [int?, takeWhile_append_cons h.digitRest, int?]

theorem isPrefixOf_of_not_mem {p : List Char} (h : q ∉ p) (cs rest : List Char) :
    p.isPrefixOf (cs ++ q :: rest) = p.isPrefixOf cs := by
  induction p generalizing cs with
  | nil => rfl
  | cons d p ih =>
    obtain ⟨hd, hp⟩ := not_or.1 (mt List.mem_cons.2 h)
    cases cs with
    | nil => simp [List.isPrefixOf, Ne.symm hd]
    | cons c cs => rw [List.cons_append, List.isPrefixOf, ih hp, List.isPrefixOf]

theorem isPrefixOf_append (h : Inert q) (s : Sign) (c : Char) (cs : List Char) :
    s.chars.isPrefixOf (c :: cs ++ q :: rest) = s.chars.isPrefixOf (c :: cs) := by
  have hq := h.not_mem_sign s
  match hs : s.chars with
  | [] => rfl
  | d :: p =>
    rw [hs, List.drop_succ_cons, List.drop_zero] at hq
    rw [List.cons_append, List.isPrefixOf, isPrefixOf_of_not_mem hq, List.isPrefixOf]

theorem ofChars?_append (h : Inert q) :
    Sign.ofChars? (c :: cs ++ q :: rest) = Sign.ofChars? (c :: cs) := by
  unfold Sign.ofChars?
  simp only [isPrefixOf_append h]

theorem exponent_le (cs : List Char) : exponent cs ≤ cs.length := by
  match cs with
  | [] => simp [exponent]
  | [e] => simp [exponent]
  | e :: s :: cs =>
    have h (ds : List Char) : (ds.takeWhile Char.isDigit).length ≤ ds.length :=
      (List.takeWhile_prefix _).length_le
    have h₁ := h cs
    have h₂ := h (s :: cs)
    simp only [exponent, List.length_cons] at h₂ ⊢
    split
    · simp only [List.drop_succ_cons, List.drop_zero]
      split <;> omega
    · simp only [List.drop_zero]
      split <;> omega

theorem float?_le (h : float? c cs = some n) : n ≤ cs.length := by
  unfold float? at h
  dsimp only at h
  have hw := (List.takeWhile_prefix (l := cs) isDigitRest).length_le
  split at h
  · next d rest _ hcs =>
    split at h
    · cases h
      have hf := (List.takeWhile_prefix (l := rest) isDigitRest).length_le
      have he := exponent_le (rest.drop (rest.takeWhile isDigitRest).length)
      have hl := congrArg List.length hcs
      simp only [List.length_drop, List.length_cons] at he hl
      omega
    · cases h
  · cases h

theorem marks_le (ds : List Char) : (ds.take 1).countP isNameMark ≤ ds.length := by
  have := List.countP_le_length (p := isNameMark) (l := ds.take 1)
  simp only [List.length_take] at this
  omega

theorem key?_le (h : key? c cs = some n) : n ≤ cs.length := by
  unfold key? at h
  dsimp only at h
  have hn := nameRest_le cs
  have hm := marks_le (cs.drop (nameRest cs))
  split at h
  · cases h
  · next rest _ _ hcs =>
    cases h
    have hl := congrArg List.length hcs
    simp only [List.length_drop, List.length_cons] at hl hm
    omega
  · cases h

theorem pathRest_le (cs : List Char) : pathRest cs ≤ cs.length := by
  fun_induction pathRest cs <;> simp_all

theorem modulePath?_le (h : modulePath? c cs = some n) : n ≤ cs.length := by
  unfold modulePath? at h
  split at h <;> cases h
  exact pathRest_le cs

theorem name?_le (h : name? c cs = some n) : n ≤ cs.length := by
  unfold name? at h
  dsimp only at h
  have hn := nameRest_le cs
  split at h
  · cases h
    split
    · next hm =>
      have hl := congrArg List.length hm
      simp only [List.length_drop, List.length_cons] at hl
      split <;> omega
    · omega
  · cases h

theorem atom?_le (h : atom? c cs = some n) : n ≤ cs.length := by
  cases cs with
  | nil => cases h
  | cons d cs =>
    have hn := nameRest_le cs
    have hm := marks_le (cs.drop (nameRest cs))
    simp only [List.length_drop] at hm
    simp only [atom?] at h
    split at h
    · cases h
      simp only [List.length_cons]
      omega
    · cases h

theorem ne_backslash (hmore : ∀ d ds, c = '\\' → cs = d :: ds → False)
    (hlast : c = '\\' → cs = [] → False) : c ≠ '\\' := by
  intro hc
  cases cs with
  | nil => exact hlast hc rfl
  | cons d ds => exact hmore d ds hc rfl

theorem stringRest_cons (hc : c ≠ '\\') (hq : c ≠ '"') :
    stringRest (c :: cs) = (stringRest cs).map (· + 1) :=
  stringRest.eq_4 _ _ (by simp [hc]) (by simp [hc]) hq

theorem stringRest_le {n : Nat} (h : stringRest cs = some n) : n ≤ cs.length := by
  fun_induction stringRest cs generalizing n <;> simp_all <;> grind

inductive Starts (c : Char) (cs : List Char) : LexemeKind → Nat → Prop
  | float {m} : float? c cs = some m → Starts c cs (.terminal .float) m
  | key {m} : key? c cs = some m → Starts c cs (.terminal .key) m
  | modulePath {m} : modulePath? c cs = some m → Starts c cs (.terminal .modulePath) m
  | name {m} : name? c cs = some m → Starts c cs (.terminal .name) m
  | atom {m} : atom? c cs = some m → Starts c cs (.terminal .atom) m
  | string {m} : string? c cs = some m → Starts c cs (.terminal .string) m
  | int {m} : int? c cs = some m → Starts c cs (.terminal .int) m
  | blank {m} : blank? c cs = some m → Starts c cs .blank m
  | comment {m} : comment? c cs = some m → Starts c cs .comment m
  | sign {s} : Sign.ofChars? (c :: cs) = some s →
      Starts c cs (.terminal (.sign s)) (s.chars.length - 1)

variable {kind k : LexemeKind}

theorem as_orElse_eq_some {a : Option Nat} {b : Option (LexemeKind × Nat)} :
    (a.map (k, ·) <|> b) = some (kind, n) →
      k = kind ∧ a = some n ∨ a = none ∧ b = some (kind, n) := by
  cases a <;> simp

theorem starts_of_first? (h : first? c cs = some (kind, n)) : Starts c cs kind n := by
  unfold first? at h
  obtain ⟨rfl, hm⟩ | ⟨-, h⟩ := as_orElse_eq_some h
  · exact .float hm
  obtain ⟨rfl, hm⟩ | ⟨-, h⟩ := as_orElse_eq_some h
  · exact .key hm
  obtain ⟨rfl, hm⟩ | ⟨-, h⟩ := as_orElse_eq_some h
  · exact .modulePath hm
  obtain ⟨rfl, hm⟩ | ⟨-, h⟩ := as_orElse_eq_some h
  · exact .name hm
  obtain ⟨rfl, hm⟩ | ⟨-, h⟩ := as_orElse_eq_some h
  · exact .atom hm
  obtain ⟨rfl, hm⟩ | ⟨-, h⟩ := as_orElse_eq_some h
  · exact .string hm
  obtain ⟨rfl, hm⟩ | ⟨-, h⟩ := as_orElse_eq_some h
  · exact .int hm
  obtain ⟨rfl, hm⟩ | ⟨-, h⟩ := as_orElse_eq_some h
  · exact .blank hm
  obtain ⟨rfl, hm⟩ | ⟨-, h⟩ := as_orElse_eq_some h
  · exact .comment hm
  obtain ⟨s, hs, h⟩ := Option.map_eq_some_iff.1 h
  cases h
  exact .sign hs

theorem prefix_of_ofChars? {s : Sign} (h : Sign.ofChars? cs = some s) : s.chars <+: cs := by
  have hp := List.find?_some (p := fun s : Sign => s.chars.isPrefixOf cs) h
  exact List.isPrefixOf_iff_prefix.1 hp

theorem Starts.le (h : Starts c cs kind n) : n ≤ cs.length := by
  cases h with
  | float h => exact float?_le h
  | key h => exact key?_le h
  | modulePath h => exact modulePath?_le h
  | name h => exact name?_le h
  | atom h => exact atom?_le h
  | string h =>
    unfold string? at h
    split at h
    · exact stringRest_le h
    · cases h
  | int h =>
    unfold int? at h
    split at h <;> cases h
    exact (List.takeWhile_prefix _).length_le
  | blank h =>
    unfold blank? at h
    split at h <;> cases h
    exact (List.takeWhile_prefix _).length_le
  | comment h =>
    unfold comment? at h
    split at h <;> cases h
    exact (List.takeWhile_prefix _).length_le
  | sign h =>
    have hl := (prefix_of_ofChars? h).length_le
    rw [List.length_cons] at hl
    omega

theorem first?_append (hq : Neutral q) (hp : Detached q rest) (hc : isCodeBlank c = false)
    (hs : c ≠ '"') (hh : c ≠ '#') : first? c (cs ++ q :: rest) = first? c cs := by
  have hb (ds : List Char) : blank? c ds = none := by simp [blank?, hc]
  have hm (ds : List Char) : comment? c ds = none := by simp [comment?, hh]
  unfold first?
  rw [← List.cons_append]
  simp only [float?_append hq.toInert hp, key?_append hq, modulePath?_append hq hp,
    name?_append hq, atom?_append hq, int?_append hq.toInert, string?_eq_none hs, hb, hm,
    ofChars?_append hq.toInert]

theorem first?_quote : first? '"' cs = (stringRest cs).map (.terminal .string, ·) := by
  have hsign : Sign.ofChars? ('"' :: cs) = none := rfl
  simp only [first?, float?_eq_none (c := '"') rfl, key?_eq_none (c := '"') rfl,
    modulePath?_eq_none (c := '"') rfl, name?_eq_none (c := '"') rfl,
    atom?_eq_none (c := '"') (by decide), int?_eq_none (c := '"') rfl, hsign]
  simp [string?, blank?, comment?, isCodeBlank]

theorem first?_hash : first? '#' cs = some (.comment, (cs.takeWhile (· ≠ '\n')).length) := by
  simp only [first?, float?_eq_none (c := '#') rfl, key?_eq_none (c := '#') rfl,
    modulePath?_eq_none (c := '#') rfl, name?_eq_none (c := '#') rfl,
    atom?_eq_none (c := '#') (by decide), int?_eq_none (c := '#') rfl]
  simp [string?, blank?, comment?, isCodeBlank]

theorem first?_single {s : Sign} (hs : s = .leftParen ∨ s = .rightParen ∨ s = .semicolon)
    (hc : s.chars = [c]) : first? c cs = some (.terminal (.sign s), 0) := by
  rcases hs with rfl | rfl | rfl <;> cases hc <;> cases cs <;> rfl

theorem first?_digits {ds : List Char} (hc : c.isDigit) (hd : ∀ d ∈ ds, d.isDigit) :
    first? c (ds ++ ')' :: rest) = some (.terminal .int, ds.length) := by
  have ha : c ≠ ':' := by rintro rfl; revert hc; decide
  have hs : c ≠ '"' := by rintro rfl; revert hc; decide
  have hn : isNameStart c = false := by
    by_contra hn
    have hd := (isDigit_isUpper_of_isNameStart (by simpa using hn)).1
    rw [hc] at hd
    cases hd
  have hu := isUpper_of_isDigit hc
  have hw : (ds ++ ')' :: rest).takeWhile isDigitRest = ds := by
    rw [List.takeWhile_append_of_pos]
    · simp [isDigitRest]
    · intro d h
      simp [isDigitRest, hd d h]
  have hf : float? c (ds ++ ')' :: rest) = none := by
    unfold float?
    dsimp only
    rw [hw, List.drop_left]
    split
    · next h => simp at h
    · rfl
  simp [first?, hf, key?_eq_none hn, modulePath?_eq_none hu, name?_eq_none hn, atom?_eq_none ha,
    string?_eq_none hs, int?, hc, hw]

end Lexeme

theorem filter_toDigits (n : Nat) : (Nat.toDigits 10 n).filter (· ≠ '_') = Nat.toDigits 10 n :=
  List.filter_eq_self.2 fun _ hc => decide_eq_true fun h =>
    Nat.underscore_not_in_toDigits (h ▸ hc)

structure Token.Spelled (t : Token) : Prop where
  text : ∀ s ∈ t.terminal.text?, t.text = s
  name : t.terminal = .name → ∃ c ∈ t.text.toList.head?, isNameStart c
  untaken : t.terminal = .name → Word.ofText? t.text = none

namespace Lexed

theorem spelled_of_mem_tokens {line : Int} {cs : List Char} {t : Token}
    (h : t ∈ (scan 0 line cs).tokens) : t.Spelled := by
  obtain ⟨l, hl, ht⟩ := List.mem_filterMap.1 h
  obtain ⟨before, c, rest, n, -, hf, htext, -⟩ := mem_scan hl
  obtain ⟨kind, text, line⟩ := l
  dsimp only at hf htext
  have hs := Lexeme.starts_of_first? hf
  cases hs with
  | name hn =>
    cases hw : Word.ofText? text with
    | none =>
      simp only [Lexeme.token?, hw] at ht
      cases ht
      refine ⟨by simp [Terminal.text?], fun _ => ⟨c, by simp [htext], ?_⟩, fun _ => hw⟩
      unfold Lexeme.name? at hn
      dsimp only at hn
      split at hn
      · next hc => exact hc
      · cases hn
    | some w =>
      simp only [Lexeme.token?, hw] at ht
      cases ht
      have := List.find?_some (p := fun w : Word => w.text = text) hw
      exact ⟨by simpa [Terminal.text?] using Eq.symm (of_decide_eq_true this), by simp, by simp⟩
  | @sign s hs =>
    cases ht
    have hp := List.prefix_iff_eq_take.1 (Lexeme.prefix_of_ofChars? hs)
    have hlen : s.chars.length = s.chars.length - 1 + 1 := by cases s <;> rfl
    rw [hlen, List.take_succ_cons] at hp
    exact ⟨by simp [Terminal.text?, Sign.text, htext, ← hp], by simp, by simp⟩
  | blank | comment => cases ht
  | _ =>
    cases ht
    exact ⟨by simp [Terminal.text?], by simp, by simp⟩

end Lexed

end EmbeddedTemplate.Code
