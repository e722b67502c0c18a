import EmbeddedTemplate.Proofs.Code.Splitting

/-!
Code behind a final `do`. Where nothing blank stands between, the word may go on in what follows and
become another token; in every other case the tokens of the two are put together.
-/

namespace EmbeddedTemplate.Code

namespace Lexeme

variable {c e : Char} {cs a b rest : List Char} {kind : LexemeKind} {n : Nat}

theorem inert_letter : Inert 'd' :=
  ⟨by decide, by decide, by decide, fun s => by cases s <;> decide⟩

theorem nameRest_letter (cs : List Char) : (∀ rest, cs.length < nameRest (cs ++ 'd' :: rest)) ∨
    ∃ a e b, cs = a ++ e :: b ∧ isNameRest e = false ∧ ∀ d ∈ a, isNameRest d := by
  obtain ⟨run, more, rfl, -, hrun, hmore⟩ := exists_takeWhile isNameRest cs
  cases more with
  | nil =>
    refine .inl fun rest => ?_
    rw [List.append_nil, nameRest, List.takeWhile_append_of_pos hrun,
      List.takeWhile_cons_of_pos rfl]
    simp
  | cons e b => exact .inr ⟨run, e, b, rfl, hmore e rfl, hrun⟩

theorem nameRest_stop (ha : ∀ d ∈ a, isNameRest d) (he : isNameRest e = false) :
    nameRest (a ++ e :: rest) = a.length := by
  rw [nameRest, List.takeWhile_append_of_pos ha, List.takeWhile_cons_of_neg (by simp [he]),
    List.append_nil]

def isColon (cs : List Char) : Bool := cs[0]? = some ':' && cs[1]? ≠ some ':'

theorem key?_stop (hc : isNameStart c) (ha : ∀ d ∈ a, isNameRest d) (he : isNameRest e = false) :
    key? c (a ++ e :: rest) =
      if isColon (if isNameMark e then rest else e :: rest) then
        some (a.length + (if isNameMark e then 1 else 0) + 1)
      else none := by
  unfold key?
  dsimp only
  rw [nameRest_stop ha he, List.drop_left, hc, List.drop_length_add_append]
  have hmarks : ((e :: rest).take 1).countP isNameMark = if isNameMark e then 1 else 0 := by
    simp [List.countP_singleton]
  have hdrop : (e :: rest).drop (if isNameMark e then 1 else 0) =
      if isNameMark e then rest else e :: rest := by split <;> rfl
  rw [hmarks, hdrop]
  generalize (if isNameMark e then rest else e :: rest) = more
  match more with
  | [] => rfl
  | [x] =>
    by_cases hx : x = ':'
    · subst hx
      rfl
    · simp [isColon, hx]
  | x :: y :: more =>
    by_cases hx : x = ':'
    · subst hx
      by_cases hy : y = ':'
      · subst hy
        rfl
      · simp [isColon, hy]
    · simp [isColon, hx]

theorem key?_letter (hc : isNameStart c) (ha : ∀ d ∈ a, isNameRest d) (he : isNameRest e = false)
    (rest rest' : List Char) :
    key? c (a ++ e :: (b ++ 'd' :: rest)) = key? c (a ++ e :: (b ++ 'd' :: rest')) := by
  have hcolon (xs : List Char) : isColon (xs ++ 'd' :: rest) = isColon (xs ++ 'd' :: rest') := by
    rcases xs with _ | ⟨x, _ | ⟨y, xs⟩⟩ <;> simp [isColon]
  rw [key?_stop hc ha he, key?_stop hc ha he, ← List.cons_append, ← List.cons_append]
  split
  · rw [hcolon]
  · rw [hcolon]

theorem name?_stop (hc : isNameStart c) (ha : ∀ d ∈ a, isNameRest d) (he : isNameRest e = false) :
    name? c (a ++ e :: rest) =
      some (a.length + if isNameMark e && rest.head? ≠ some '=' then 1 else 0) := by
  unfold name?
  dsimp only
  rw [nameRest_stop ha he, List.drop_left, if_pos hc]

theorem name?_letter (hc : isNameStart c) (ha : ∀ d ∈ a, isNameRest d) (he : isNameRest e = false)
    (rest rest' : List Char) :
    name? c (a ++ e :: (b ++ 'd' :: rest)) = name? c (a ++ e :: (b ++ 'd' :: rest')) := by
  rw [name?_stop hc ha he, name?_stop hc ha he]
  cases b <;> rfl

theorem takeWhile_letter {p : Char → Bool} (hp : p 'd')
    (h : ((cs ++ 'd' :: rest).takeWhile p).length ≤ cs.length) (rest' : List Char) :
    (cs ++ 'd' :: rest').takeWhile p = (cs ++ 'd' :: rest).takeWhile p := by
  obtain ⟨run, more, rfl, -, hrun, hmore⟩ := exists_takeWhile p cs
  cases more with
  | nil =>
    rw [List.append_nil, List.takeWhile_append_of_pos hrun, List.takeWhile_cons_of_pos hp,
      List.length_append, List.length_cons] at h
    omega
  | cons d more =>
    have hstop (xs : List Char) : (d :: xs).takeWhile p = [] :=
      List.takeWhile_cons_of_neg (by simp [hmore d rfl])
    rw [List.append_assoc, List.append_assoc, List.takeWhile_append_of_pos hrun,
      List.takeWhile_append_of_pos hrun, List.cons_append, List.cons_append, hstop, hstop]

theorem pathRest_letter (h : pathRest (cs ++ 'd' :: rest) ≤ cs.length) (rest' : List Char) :
    pathRest (cs ++ 'd' :: rest') = pathRest (cs ++ 'd' :: rest) := by
  fun_induction pathRest cs with
  | case1 c cs hc ih =>
    simp only [List.cons_append, pathRest, hc, if_true, List.length_cons] at h ⊢
    rw [ih (by omega)]
  | case2 c cs hc => simp [pathRest, hc]
  | case3 c cs hne hc ih =>
    have hc' : c ≠ '.' := by rintro rfl; revert hc; decide
    rw [List.cons_append, pathRest.eq_2 _ _ (by simp_all), if_pos hc, List.length_cons] at h
    rw [List.cons_append, List.cons_append, pathRest.eq_2 _ _ (by simp_all),
      pathRest.eq_2 _ _ (by simp_all), ih (by omega)]
  | case4 c cs hne hc =>
    by_cases hd : c = '.'
    · subst hd
      cases cs with
      | nil => simp [pathRest]
      | cons d cs => exact absurd rfl (hne d cs rfl)
    · rw [List.cons_append, List.cons_append, pathRest.eq_2 _ _ (by simp_all),
        pathRest.eq_2 _ _ (by simp_all), if_neg hc, if_neg hc]
  | case5 =>
    rw [List.nil_append, pathRest.eq_2 _ _ (by simp), if_pos (show isNameRest 'd' from rfl)] at h
    cases h

theorem stringRest_pos (h : stringRest cs = some n) : 0 < n := by
  unfold stringRest at h
  split at h
  · obtain ⟨m, -, rfl⟩ := Option.map_eq_some_iff.1 h
    omega
  · cases h
  · cases h
    omega
  · obtain ⟨m, -, rfl⟩ := Option.map_eq_some_iff.1 h
    omega
  · cases h

theorem stringRest_letter (h : stringRest (cs ++ rest) = some n) (hn : n ≤ cs.length) :
    stringRest cs = some n := by
  fun_induction stringRest cs generalizing n with
  | case1 c cs ih =>
    obtain ⟨m, hm, rfl⟩ := Option.map_eq_some_iff.1 h
    rw [ih hm (by simpa using hn)]
    rfl
  | case2 =>
    cases rest with
    | nil => cases h
    | cons d rest =>
      obtain ⟨m, hm, rfl⟩ := Option.map_eq_some_iff.1 h
      simp at hn
  | case3 => exact h
  | case4 c cs hne hne' hq ih =>
    have hc : c ≠ '\\' := ne_backslash hne hne'
    rw [List.cons_append, stringRest_cons hc hq] at h
    obtain ⟨m, hm, rfl⟩ := Option.map_eq_some_iff.1 h
    rw [ih hm (by simpa using hn)]
    rfl
  | case5 =>
    have := stringRest_pos h
    rw [List.length_nil] at hn
    omega

theorem first?_of_isNameStart (hc : isNameStart c) (cs : List Char) : first? c cs =
    ((key? c cs).map (LexemeKind.terminal .key, ·) <|>
      (name? c cs).map (LexemeKind.terminal .name, ·)) := by
  have hd : c.isDigit = false ∧ c.isUpper = false := isDigit_isUpper_of_isNameStart hc
  obtain ⟨m, hm⟩ : ∃ m, name? c cs = some m := by
    unfold name?
    dsimp only
    rw [if_pos hc]
    exact ⟨_, rfl⟩
  simp [first?, float?_eq_none hd.1, modulePath?_eq_none hd.2, hm]

theorem first?_of_isUpper (hc : c.isUpper) (cs : List Char) :
    first? c cs = some (.terminal .modulePath, pathRest cs) := by
  have hn : isNameStart c = false := by
    by_contra hn
    have := (isDigit_isUpper_of_isNameStart (by simpa using hn)).2
    simp [hc] at this
  have hd : c.isDigit = false := by
    by_contra hd
    have hupper := isUpper_of_isDigit (by simpa using hd)
    rw [hc] at hupper
    cases hupper
  simp [first?, float?_eq_none hd, key?_eq_none hn, modulePath?, hc]

theorem first?_colon (cs : List Char) :
    first? ':' cs = (atom? ':' cs).map (LexemeKind.terminal .atom, ·) := by
  have hsign : Sign.ofChars? (':' :: cs) = none := rfl
  simp only [first?, float?_eq_none (c := ':') rfl, key?_eq_none (c := ':') rfl,
    modulePath?_eq_none (c := ':') rfl, name?_eq_none (c := ':') rfl,
    string?_eq_none (c := ':') (by decide), int?_eq_none (c := ':') rfl, hsign]
  simp [blank?, comment?, isCodeBlank]

theorem nameRest_lt_of_key? (h : key? c cs = some n) : nameRest cs < n := by
  unfold key? at h
  dsimp only at h
  split at h
  · cases h
  · cases h
    omega
  · cases h

theorem nameRest_le_of_name? (h : name? c cs = some n) : nameRest cs ≤ n := by
  unfold name? at h
  dsimp only at h
  split at h
  · cases h
    omega
  · cases h

theorem atom?_letter (h : atom? ':' (cs ++ 'd' :: rest) = some n) (hn : n ≤ cs.length)
    (rest' : List Char) : atom? ':' (cs ++ 'd' :: rest') = some n := by
  cases cs with
  | nil =>
    simp only [List.nil_append, atom?] at h
    rw [if_pos (by decide)] at h
    cases h
    rw [List.length_nil] at hn
    omega
  | cons d cs =>
    rw [← h]
    simp only [List.cons_append, atom?] at h ⊢
    obtain hover | ⟨a, e, b, rfl, he, ha⟩ := nameRest_letter cs
    · have := hover rest
      split at h <;> cases h
      rw [List.length_cons] at hn
      omega
    · simp only [List.append_assoc, List.cons_append, nameRest_stop ha he, List.drop_left]
      rfl

theorem first?_letter_of_isNameStart (hc : isNameStart c)
    (h : first? c (cs ++ 'd' :: rest) = some (kind, n)) (hn : n ≤ cs.length)
    (rest' : List Char) : first? c (cs ++ 'd' :: rest') = some (kind, n) := by
  rw [first?_of_isNameStart hc] at h ⊢
  obtain hover | ⟨a, e, b, rfl, he, ha⟩ := nameRest_letter cs
  · have := hover rest
    obtain ⟨-, hk⟩ | ⟨-, hm⟩ := as_orElse_eq_some h
    · have := nameRest_lt_of_key? hk
      omega
    · obtain ⟨m, hm, he⟩ := Option.map_eq_some_iff.1 hm
      cases he
      have := nameRest_le_of_name? hm
      omega
  · simp only [List.append_assoc, List.cons_append] at h ⊢
    rw [key?_letter hc ha he rest' rest, name?_letter hc ha he rest' rest, h]

theorem first?_letter (h : first? c (cs ++ 'd' :: rest) = some (kind, n)) (hn : n ≤ cs.length)
    (rest' : List Char) : first? c (cs ++ 'd' :: rest') = some (kind, n) := by
  by_cases hname : isNameStart c
  · exact first?_letter_of_isNameStart hname h hn rest'
  by_cases hupper : c.isUpper
  · rw [first?_of_isUpper hupper] at h ⊢
    cases h
    rw [pathRest_letter hn]
  by_cases hcolon : c = ':'
  · subst hcolon
    rw [first?_colon] at h ⊢
    obtain ⟨m, hm, he⟩ := Option.map_eq_some_iff.1 h
    cases he
    rw [atom?_letter hm hn]
    rfl
  by_cases hquote : c = '"'
  · subst hquote
    rw [first?_quote] at h ⊢
    obtain ⟨m, hm, h⟩ := Option.map_eq_some_iff.1 h
    cases h
    rw [stringRest_append (stringRest_letter hm hn)]
    rfl
  by_cases hhash : c = '#'
  · subst hhash
    rw [first?_hash] at h ⊢
    cases h
    rw [takeWhile_letter rfl hn]
  by_cases hblank : isCodeBlank c
  · rw [first?_blank hblank] at h ⊢
    rw [← h, takeWhile_append_cons (by rfl), takeWhile_append_cons (by rfl)]
  -- Numbers and signs are left, which do not go over a letter.
  have hdetached (rest : List Char) : Detached 'd' rest := by rintro ⟨⟩
  have hclasses (ds : List Char) : key? c ds = none ∧ modulePath? c ds = none ∧
      name? c ds = none ∧ atom? c ds = none ∧ string? c ds = none ∧ blank? c ds = none ∧
      comment? c ds = none :=
    ⟨key?_eq_none (by simpa using hname), modulePath?_eq_none (by simpa using hupper),
      name?_eq_none (by simpa using hname), atom?_eq_none hcolon, string?_eq_none hquote,
      by simp [blank?, hblank], by simp [comment?, hhash]⟩
  rw [← h]
  simp only [first?, hclasses, float?_append inert_letter (hdetached _), int?_append inert_letter]
  rw [← List.cons_append, ofChars?_append inert_letter, ← List.cons_append,
    ofChars?_append inert_letter]

def extendsName : List Char → Bool
  | [] => false
  | c :: cs => isNameRest c || isColon (c :: cs) || isNameMark c && cs.head? ≠ some '='

theorem first?_do (h : extendsName cs = false) :
    first? 'd' ('o' :: cs) = some (.terminal .name, 1) := by
  rw [first?_of_isNameStart rfl]
  cases cs with
  | nil => rfl
  | cons e cs =>
    simp only [extendsName, Bool.or_eq_false_iff] at h
    obtain ⟨⟨he, hcolon⟩, hmark⟩ := h
    have ho : ∀ d ∈ ['o'], isNameRest d := List.forall_mem_singleton.2 rfl
    rw [← List.singleton_append, key?_stop rfl ho he, name?_stop rfl ho he, hmark]
    cases hm : isNameMark e with
    | false => simp [hcolon]
    | true =>
      have hequals : cs.head? = some '=' := by simpa [hm] using hmark
      have : isColon cs = false := by
        rw [List.head?_eq_getElem?] at hequals
        simp [isColon, hequals]
      simp [this]

theorem one_lt_of_name? (h : extendsName cs) (hk : key? 'd' ('o' :: cs) = none)
    (hn : name? 'd' ('o' :: cs) = some n) : 1 < n := by
  cases cs with
  | nil => cases h
  | cons e cs =>
    cases he : isNameRest e with
    | true =>
      have := nameRest_le_of_name? hn
      rw [nameRest, List.takeWhile_cons_of_pos rfl, List.takeWhile_cons_of_pos he] at this
      simp only [List.length_cons] at this
      omega
    | false =>
      have ho : ∀ d ∈ ['o'], isNameRest d := List.forall_mem_singleton.2 rfl
      rw [← List.singleton_append, key?_stop rfl ho he] at hk
      rw [← List.singleton_append, name?_stop rfl ho he] at hn
      -- The colon of a key stands behind the mark, if there is one.
      have hmark : isNameMark e && cs.head? ≠ some '=' := by
        simp only [extendsName, he, Bool.false_or, Bool.or_eq_true] at h
        refine h.resolve_left fun hcolon => ?_
        have : isNameMark e = false := by
          have : e = ':' := by simpa [isColon] using (Bool.and_eq_true ..).mp hcolon |>.1
          rw [this]
          rfl
        simp [this, hcolon] at hk
      cases hn
      rw [hmark]
      decide

theorem exists_first?_of_extendsName (h : extendsName cs) :
    ∃ x n, first? 'd' ('o' :: cs) = some (.terminal x, n) ∧ 1 < n := by
  rw [first?_of_isNameStart rfl]
  cases hk : key? 'd' ('o' :: cs) with
  | some m =>
    have := nameRest_lt_of_key? hk
    rw [nameRest, List.takeWhile_cons_of_pos rfl, List.length_cons] at this
    exact ⟨.key, m, rfl, by omega⟩
  | none =>
    obtain ⟨m, hm⟩ : ∃ m, name? 'd' ('o' :: cs) = some m := by
      unfold name?
      exact ⟨_, rfl⟩
    exact ⟨.name, m, by rw [hm]; rfl, one_lt_of_name? h hk hm⟩

end Lexeme

namespace Lexed

open Lexeme (extendsName)

variable {line : Int} {cs more : List Char} {ts : List Token}

theorem tokensAt?_do (h : extendsName more = false) : tokensAt? line ('d' :: 'o' :: more) =
    (tokensAt? line more).map (⟨.word .doWord, "do", line⟩ :: ·) := by
  rw [tokensAt?_some (Lexeme.first?_do h)]
  simp [lineBehind]
  rfl

theorem exists_of_extendsName (h : extendsName more)
    (ht : tokensAt? line ('d' :: 'o' :: more) = some ts) : ∃ t ∈ ts.head?, t.text ≠ "do" := by
  obtain ⟨x, n, hf, hn⟩ := Lexeme.exists_first?_of_extendsName h
  have hle := (Lexeme.starts_of_first? hf).le
  rw [tokensAt?_some hf] at ht
  obtain ⟨us, -, rfl⟩ := Option.map_eq_some_iff.1 ht
  obtain ⟨t, htoken⟩ : ∃ t, Lexeme.token? ⟨.terminal x,
      String.ofList ('d' :: ('o' :: more).take n), line⟩ = some t := by
    unfold Lexeme.token?
    cases x <;> exact ⟨_, rfl⟩
  rw [htoken]
  refine ⟨t, rfl, fun heq => ?_⟩
  rw [(Lexeme.token?_eq_some htoken).1] at heq
  have := congrArg (·.toList.length) heq
  simp only [String.toList_ofList, List.length_cons, List.length_take] at this
  have hdo : "do".toList.length = 2 := rfl
  rw [List.length_cons] at hle
  omega

theorem isCodeBlank_of_first? {c : Char} {cs : List Char} {n : Nat}
    (h : Lexeme.first? c cs = some (.blank, n)) : ∀ b ∈ c :: cs.take n, isCodeBlank b := by
  have hc : isCodeBlank c := by
    cases Lexeme.starts_of_first? h with
    | blank h =>
      unfold Lexeme.blank? at h
      split at h
      · next hc => exact hc
      · cases h
  rw [Lexeme.first?_blank hc] at h
  obtain ⟨run, rest, rfl, hrun, hall, -⟩ := Lexeme.exists_takeWhile isCodeBlank cs
  rw [hrun] at h
  cases h
  rw [List.take_left]
  exact List.forall_mem_cons.2 ⟨hc, hall⟩

theorem isCodeBlank_of_solid (hr : (scan 0 line cs).rejected = none)
    (hs : (scan 0 line cs).solid = []) : ∀ c ∈ cs, isCodeBlank c := by
  induction line, cs using scan_induction with
  | nil line => nofun
  | none line c cs hf =>
    rw [scan_none hf] at hr
    cases hr
  | some line c cs kind n hf ih =>
    rw [scan_some hf] at hr
    rw [solid_some hf, List.append_eq_nil_iff] at hs
    obtain ⟨hkind, hs⟩ := hs
    split at hkind
    · next hk =>
      subst hk
      rw [← List.take_append_drop n cs, ← List.cons_append]
      exact List.forall_mem_append.2 ⟨isCodeBlank_of_first? hf, ih hr hs⟩
    · cases hkind

/--
Code ends in `do` and blanks, and the tokens in front of the word are the same whatever stands
behind it.
-/
structure EndsInDo (line : Int) (cs front blanks : List Char) (us : List Token) : Prop where
  split : cs = front ++ 'd' :: 'o' :: blanks
  blank : ∀ b ∈ blanks, isCodeBlank b
  tokens more : tokensAt? line (front ++ 'd' :: 'o' :: more) =
    (tokensAt? (lineBehind line front) ('d' :: 'o' :: more)).map (us ++ ·)

theorem EndsInDo.behind {c : Char} {kind : LexemeKind} {n : Nat} {front blanks : List Char}
    {us : List Token} (hf : Lexeme.first? c cs = some (kind, n))
    (h : EndsInDo (lineBehind line (c :: cs.take n)) (cs.drop n) front blanks us) :
    EndsInDo line (c :: cs) (c :: cs.take n ++ front) blanks
      ((Lexeme.token? ⟨kind, String.ofList (c :: cs.take n), line⟩).toList ++ us) := by
  have hle := (Lexeme.starts_of_first? hf).le
  have hlen : (cs.take n).length = n := by rw [List.length_take, Nat.min_eq_left hle]
  have hsplit : cs = cs.take n ++ front ++ 'd' :: 'o' :: blanks := by
    rw [List.append_assoc, ← h.split, List.take_append_drop]
  refine ⟨by rw [List.cons_append, List.cons_append, ← hsplit], h.blank, fun more => ?_⟩
  rw [hsplit] at hf
  have hf' := Lexeme.first?_letter hf (by rw [List.length_append, hlen]; omega) ('o' :: more)
  rw [List.append_assoc] at hf'
  rw [List.append_assoc, List.cons_append, tokensAt?_some hf', List.take_left' hlen,
    List.drop_left' hlen, h.tokens, ← lineBehind_append, Option.map_map]
  simp [Function.comp_def]

theorem exists_endsInDo {l : Lexeme} (hr : (scan 0 line cs).rejected = none)
    (hl : (scan 0 line cs).solid.getLast? = some l) (ht : l.text = "do") :
    ∃ front blanks us, EndsInDo line cs front blanks us := by
  induction line, cs using scan_induction with
  | nil line => cases hl
  | none line c cs hf =>
    rw [scan_none hf] at hr
    cases hr
  | some line c cs kind n hf ih =>
    rw [scan_some hf] at hr
    rw [solid_some hf, List.getLast?_append] at hl
    cases hs : (scan 0 (lineBehind line (c :: cs.take n)) (cs.drop n)).solid.getLast? with
    | none =>
      rw [hs, Option.none_or] at hl
      split at hl
      · cases hl
      · cases hl
        have hdo : c :: cs.take n = ['d', 'o'] := by simpa using congrArg String.toList ht
        have hblanks := isCodeBlank_of_solid hr (List.getLast?_eq_none_iff.1 hs)
        refine ⟨[], cs.drop n, [], ?_, hblanks, fun more => by simp⟩
        have hsplit : c :: cs = c :: cs.take n ++ cs.drop n := by simp
        rw [hdo] at hsplit
        exact hsplit
    | some l' =>
      obtain rfl : l' = l := by simpa [hs] using hl
      obtain ⟨front, blanks, us, h⟩ := ih hr hs
      exact ⟨_, _, _, h.behind hf⟩

end Lexed

def spellings? (code : String) : Option (List (Terminal × String)) :=
  (tokens? code).map (·.map Token.spelling)

/-- The `do` at the end of code goes on in the code behind it. -/
def Fuses (code more : String) : Prop :=
  code.toList.getLast? = some 'o' ∧ Lexeme.extendsName more.toList

instance (code more : String) : Decidable (Fuses code more) := inferInstanceAs (Decidable (_ ∧ _))

theorem Lexed.scan_of_tokens? {code : String} {ts : List Token} (h : tokens? code = some ts) :
    (scan 0 1 code.toList).rejected = none ∧ (scan 0 1 code.toList).tokens = ts := by
  unfold tokens? at h
  dsimp only at h
  split at h
  · next hr =>
    cases h
    exact ⟨Option.isNone_iff_eq_none.1 hr, rfl⟩
  · cases h

theorem Lexed.tokens_eq_solid (lexed : Lexed) :
    lexed.tokens = lexed.solid.filterMap Lexeme.token? := by
  rw [tokens, solid, List.filterMap_filter]
  congr 1
  funext l
  split
  · rfl
  · next hk =>
    have hk : l.kind = .blank := by simpa using hk
    simp [Lexeme.token?, hk]

theorem Lexed.exists_solid {lexed : Lexed} {t : Token} (ht : lexed.tokens.getLast? = some t)
    (hc : lexed.solid.getLast?.any (·.kind = .comment) = false) :
    ∃ l, lexed.solid.getLast? = some l ∧ l.token? = some t := by
  rw [tokens_eq_solid] at ht
  cases hs : lexed.solid.getLast? with
  | none =>
    rw [List.getLast?_eq_none_iff.1 hs] at ht
    cases ht
  | some l =>
    refine ⟨l, rfl, ?_⟩
    have hblank : l.kind ≠ .blank := by
      simpa using (List.mem_filter.1 (List.mem_of_getLast? hs)).2
    have hcomment : l.kind ≠ .comment := by simpa [hs] using hc
    obtain ⟨init, hinit⟩ := List.getLast?_eq_some_iff.1 hs
    obtain ⟨u, hu⟩ : ∃ u, l.token? = some u := by
      unfold Lexeme.token?
      split
      · exact ⟨_, rfl⟩
      · exact ⟨_, rfl⟩
      · next hname hterminal =>
        cases hk : l.kind with
        | blank => exact absurd hk hblank
        | comment => exact absurd hk hcomment
        | terminal x => exact absurd hk (hterminal x)
    rw [hinit, List.filterMap_append] at ht
    simpa [hu] using ht

theorem extendsName_blank {b : Char} (hb : isCodeBlank b) (cs : List Char) :
    Lexeme.extendsName (b :: cs) = false := by
  have h : b = ' ' ∨ b = '\t' ∨ b = '\x0c' ∨ b = '\r' ∨ b = '\n' := by
    simpa [isCodeBlank, or_assoc] using hb
  rcases h with rfl | rfl | rfl | rfl | rfl <;> rfl

theorem extendsName_blanks {blanks : List Char} (h : ∀ b ∈ blanks, isCodeBlank b) :
    Lexeme.extendsName blanks = false := by
  cases blanks with
  | nil => rfl
  | cons b blanks => exact extendsName_blank (h b List.mem_cons_self) blanks

theorem endsInDo_of_tokens? {code : String} {ts : List Token} {t : Token}
    (ht : tokens? code = some ts) (hlast : ts.getLast? = some t)
    (hdo : t.terminal = .word .doWord) (hc : endsInComment code = false) :
    ∃ front blanks us, Lexed.EndsInDo 1 code.toList front blanks us := by
  obtain ⟨hr, rfl⟩ := Lexed.scan_of_tokens? ht
  have hcomment : (Lexed.scan 0 1 code.toList).solid.getLast?.any (·.kind = .comment) = false := by
    rw [← hc]
    exact (congrArg (· && _) (Option.isNone_iff_eq_none.2 hr)).symm
  obtain ⟨l, hl, hkind⟩ := Lexed.exists_solid hlast hcomment
  refine Lexed.exists_endsInDo hr hl ?_
  have hspelled := Lexed.spelled_of_mem_tokens (List.mem_of_getLast? hlast)
  rw [← (Lexeme.token?_eq_some hkind).1]
  exact hspelled.text "do" (by rw [hdo]; rfl)

theorem fuses_iff {code more : String} {front blanks : List Char}
    (hcode : code.toList = front ++ 'd' :: 'o' :: blanks) (hb : ∀ b ∈ blanks, isCodeBlank b) :
    Fuses code more ↔ Lexeme.extendsName (blanks ++ more.toList) := by
  rw [Fuses, hcode]
  rcases List.eq_nil_or_concat blanks with rfl | ⟨init, b, rfl⟩
  · simp
  · rw [List.concat_eq_append] at hb ⊢
    refine iff_of_false (fun h => ?_) ?_
    · have hlast : front ++ 'd' :: 'o' :: (init ++ [b]) = front ++ 'd' :: 'o' :: init ++ [b] := by
        simp
      rw [hlast, List.getLast?_concat] at h
      obtain rfl : b = 'o' := Option.some.inj h.1
      exact absurd (hb 'o' (by simp)) (by decide)
    · obtain ⟨c, cs, hcs⟩ := List.exists_cons_of_ne_nil (show init ++ [b] ≠ [] by simp)
      rw [hcs, List.cons_append, extendsName_blank (hb c (by rw [hcs]; exact List.mem_cons_self))]
      exact Bool.false_ne_true

/-- Code behind a `do` keeps its tokens and those in front just if the word does not go on in it. -/
theorem spellings?_append_iff {code more : String} {ts : List Token} {t : Token}
    {vs : List (Terminal × String)} (ht : tokens? code = some ts) (hlast : ts.getLast? = some t)
    (hdo : t.terminal = .word .doWord) (hc : endsInComment code = false)
    (hmore : spellings? more = some vs) :
    spellings? (code ++ more) = some (ts.map Token.spelling ++ vs) ↔ ¬ Fuses code more := by
  obtain ⟨front, blanks, us, hcode, hb, hfront⟩ := endsInDo_of_tokens? ht hlast hdo hc
  have hwhole : spellings? (code ++ more) = (Lexed.tokensAt? (Lexed.lineBehind 1 front)
      ('d' :: 'o' :: (blanks ++ more.toList))).map fun vs => (us ++ vs).map Token.spelling := by
    rw [spellings?, tokensAt?_of_tokens?, String.toList_append, hcode, List.append_assoc,
      List.cons_append, List.cons_append, hfront, Option.map_map]
    rfl
  have hts : ts = us ++ [⟨.word .doWord, "do", Lexed.lineBehind 1 front⟩] := by
    rw [tokensAt?_of_tokens?, hcode, hfront, Lexed.tokensAt?_do (extendsName_blanks hb),
      ← List.append_nil blanks, Lexed.tokensAt?_blanks hb] at ht
    exact (Option.some.inj ht).symm
  rw [fuses_iff hcode hb, hwhole, hts]
  cases hext : Lexeme.extendsName (blanks ++ more.toList) with
  | false =>
    refine iff_of_true ?_ (by simp)
    have hspelled := Lexed.spelling_tokensAt? (Lexed.lineBehind (Lexed.lineBehind 1 front) blanks) 1
      more.toList
    rw [← tokensAt?_of_tokens?, ← spellings?, hmore] at hspelled
    obtain ⟨ws, hws, rfl⟩ := Option.map_eq_some_iff.1 hspelled
    rw [Lexed.tokensAt?_do hext, Lexed.tokensAt?_blanks hb, hws]
    simp
  | true =>
    refine iff_of_false (fun h => ?_) (by simp)
    obtain ⟨ws, hws, h⟩ := Option.map_eq_some_iff.1 h
    obtain ⟨u, hu, hne⟩ := Lexed.exists_of_extendsName hext hws
    obtain ⟨ws, rfl⟩ := List.head?_eq_some_iff.1 hu
    simp only [List.map_append, List.append_assoc, List.append_cancel_left_eq, List.map_cons,
      List.cons_append, List.cons.injEq] at h
    exact hne (congrArg Prod.snd h.1)

end EmbeddedTemplate.Code
