import EmbeddedTemplate.Proofs.Number.Rounding
import Mathlib.Data.List.DropRight
import Mathlib.Data.List.TakeWhile

namespace EmbeddedTemplate.Binary64

variable {m n : ℕ} {e place : ℤ} {cs ds whole fraction tail : List Char}

theorem onGrid_eq_some {d : ℕ} (h : onGrid m e place = some d) :
    ofDecimal false d place = .finite false m e := by
  unfold onGrid at h
  simpa using List.find?_some h

/-- A grid as fine as that of seventeen digits has a point that reads back. -/
theorem isSome_onGrid (hx : (finite false m e).InFormat) (hm : 0 < m)
    (h : 10 ^ place * 10 ^ 16 ≤ (m * 2 ^ e : ℚ)) : (onGrid m e place).isSome := by
  have hten := ten_zpow_pos place
  have hv : (0 : ℚ) < m * 2 ^ e := mul_pos (Nat.cast_pos.2 hm) (two_zpow_pos e)
  have hround : roundHalfEven (m * Nat.pow 2 e.toNat * Nat.pow 10 (-place).toNat)
      (Nat.pow 2 (-e).toNat * Nat.pow 10 place.toNat) = nearest (m * 2 ^ e / 10 ^ place) := by
    rw [roundHalfEven_eq _ (by simp only [Nat.pow_eq]; positivity), two_zpow_eq_div,
      zpow_eq_div (b := 10) (by norm_num)]
    congr 1
    push_cast [Nat.pow_eq]
    field_simp
  have habs := abs_nearest_sub_le (div_nonneg hv.le hten.le)
  generalize nearest (m * 2 ^ e / 10 ^ place) = d at hround habs
  have hreads : ofDecimal false d place = .finite false m e := by
    rw [ofDecimal_eq]
    refine ofRat_of_abs_sub_lt hx ?_
    have hsplit : (d * 10 ^ place - m * 2 ^ e : ℚ) = (d - m * 2 ^ e / 10 ^ place) * 10 ^ place := by
      rw [sub_mul, div_mul_cancel₀ _ hten.ne']
    calc |(d * 10 ^ place - m * 2 ^ e : ℚ)| = |(d - m * 2 ^ e / 10 ^ place : ℚ)| * 10 ^ place := by
          rw [hsplit, abs_mul, abs_of_pos hten]
      _ ≤ 1 / 2 * 10 ^ place := mul_le_mul_of_nonneg_right habs hten.le
      _ ≤ m * 2 ^ e / (2 * 10 ^ 16) := by linarith
      _ < m * 2 ^ e / 2 ^ 54 := div_lt_div_of_pos_left hv (by norm_num) (by norm_num)
  rw [onGrid, List.find?_isSome]
  exact ⟨d, List.mem_cons.2 (.inl hround.symm), by simpa using hreads⟩

theorem ofDecimal_shortest (hx : (finite false m e).InFormat) (hm : 0 < m) :
    ofDecimal false (shortest m e).1 (shortest m e).2 = .finite false m e := by
  let find (place : ℤ) := (onGrid m e place).map (·, place)
  let top := floorLog10 (m * Nat.pow 2 e.toNat) (Nat.pow 2 (-e).toNat)
  let grids := (List.range 17).map fun (count : ℕ) => top - count
  have hshortest : shortest m e = (grids.findSome? find).getD (0, 0) := rfl
  have hlog : (10 : ℚ) ^ top ≤ m * 2 ^ e := by
    have hnum : 0 < m * Nat.pow 2 e.toNat := by simp only [Nat.pow_eq]; positivity
    have hden : 0 < Nat.pow 2 (-e).toNat := by simp only [Nat.pow_eq]; positivity
    have hq : ((m * Nat.pow 2 e.toNat : ℕ) : ℚ) / (Nat.pow 2 (-e).toNat : ℕ) = m * 2 ^ e := by
      rw [two_zpow_eq_div]
      push_cast [Nat.pow_eq]
      rw [mul_div_assoc]
    have hpos : (0 : ℚ) < m * 2 ^ e := mul_pos (Nat.cast_pos.2 hm) (two_zpow_pos e)
    have htop : top = Int.log 10 (m * 2 ^ e : ℚ) := by
      rw [← hq]
      exact floorLog10_eq hnum hden
    rw [htop]
    exact_mod_cast Int.zpow_log_le_self (by norm_num) hpos
  have hsome : (grids.findSome? find).isSome := by
    rw [List.findSome?_isSome_iff]
    refine ⟨top - 16, List.mem_map.2 ⟨16, by simp, by norm_num⟩, ?_⟩
    rw [Option.isSome_map]
    refine isSome_onGrid hx hm ?_
    rwa [zpow_sub₀ (by norm_num), zpow_ofNat, div_mul_cancel₀ _ (by norm_num)]
  obtain ⟨r, hr⟩ := Option.isSome_iff_exists.1 hsome
  rw [hshortest, hr, Option.getD_some]
  obtain ⟨place, -, hfind⟩ := List.exists_of_findSome?_eq_some hr
  obtain ⟨d, hd, rfl⟩ := Option.map_eq_some_iff.1 hfind
  exact onGrid_eq_some hd

def areDigits (cs : List Char) : Prop := ∀ c ∈ cs, c.isDigit

theorem natOfDigits_append (cs ds : List Char) :
    natOfDigits (cs ++ ds) = 10 ^ ds.length * natOfDigits cs + natOfDigits ds := by
  simp only [natOfDigits_eq, Nat.ofDigitChars_append]
  exact Nat.ofDigitChars_eq_ofDigitChars_zero

@[simp] theorem natOfDigits_zeros (k : ℕ) : natOfDigits (List.replicate k '0') = 0 := by
  rw [natOfDigits_eq, Nat.ofDigitChars_replicate_zero, mul_zero]

theorem areDigits_toDigits (n : ℕ) : areDigits (Nat.toDigits 10 n) :=
  fun _ hc => Nat.isDigit_of_mem_toDigits (by norm_num) (by norm_num) hc

theorem areDigits_zeros (k : ℕ) : areDigits (List.replicate k '0') :=
  fun _ hc => List.eq_of_mem_replicate hc ▸ rfl

theorem areDigits.append (hc : areDigits cs) (hd : areDigits ds) : areDigits (cs ++ ds) :=
  List.forall_mem_append.2 ⟨hc, hd⟩

theorem areDigits_padded (width n : ℕ) : areDigits (padded width n) :=
  (areDigits_zeros _).append (areDigits_toDigits n)

@[simp] theorem natOfDigits_padded (width n : ℕ) : natOfDigits (padded width n) = n := by
  rw [padded, natOfDigits_append, natOfDigits_zeros, natOfDigits_toDigits, mul_zero, zero_add]

theorem trimmed_spec (n : ℕ) (place : ℤ) :
    (natOfDigits (trimmed n place).1 * 10 ^ (trimmed n place).2 : ℚ) = n * 10 ^ place := by
  let digits := Nat.toDigits 10 n
  let kept := digits.rdropWhile (· = '0')
  let zeros := digits.rtakeWhile (· = '0')
  have hsplit : kept ++ zeros = digits := List.rdropWhile_append_rtakeWhile ..
  have hzeros : zeros = List.replicate zeros.length '0' :=
    List.eq_replicate_of_mem fun c hc => by simpa using List.mem_rtakeWhile_imp hc
  have htrimmed : trimmed n place = (kept, place + zeros.length) := by
    have hlength : digits.length - kept.length = zeros.length := by simp [← hsplit]
    exact congrArg (fun k : ℕ => (kept, place + k)) hlength
  have hn : n = 10 ^ zeros.length * natOfDigits kept := by
    rw [← natOfDigits_toDigits n]
    change natOfDigits digits = _
    rw [← hsplit, hzeros, natOfDigits_append, natOfDigits_zeros, List.length_replicate, add_zero]
  rw [htrimmed, zpow_add₀ (by norm_num), zpow_natCast]
  conv_rhs => rw [hn]
  push_cast
  ring

theorem areDigits_trimmed (n : ℕ) (place : ℤ) : areDigits (trimmed n place).1 := fun c hc =>
  areDigits_toDigits n c
    (List.mem_reverse.1 ((List.dropWhile_sublist _).subset (List.mem_reverse.1 hc)))

theorem trimmed_ne_nil (hn : 0 < n) : (trimmed n place).1 ≠ [] := by
  intro h
  have hspec := trimmed_spec n place
  have hpos : (0 : ℚ) < n * 10 ^ place := mul_pos (Nat.cast_pos.2 hn) (ten_zpow_pos place)
  rw [h, natOfDigits, List.foldl_nil, Nat.cast_zero, zero_mul] at hspec
  exact hpos.ne hspec

theorem readExponent_padded (width : ℕ) (first : ℤ) :
    readExponent ('e' :: (if first < 0 then '-' else '+') :: padded width first.natAbs) =
      some first := by
  have hdigits : (padded width first.natAbs).all Char.isDigit :=
    List.all_eq_true.2 (areDigits_padded width _)
  have hne : (padded width first.natAbs).isEmpty = false := by
    rw [List.isEmpty_eq_false_iff, padded]
    exact List.append_ne_nil_of_right_ne_nil _ Nat.toDigits_ne_nil
  obtain h | h := lt_or_ge first 0
  · simp [readExponent, splitSign, if_pos h, hdigits, hne, abs_of_neg h]
  · simp [readExponent, splitSign, if_neg h.not_gt, hdigits, hne, abs_of_nonneg h]

theorem takeWhile_digits (hc : areDigits cs) (ht : ∀ c ∈ tail.head?, c.isDigit = false) :
    (cs ++ tail).takeWhile Char.isDigit = cs := by
  rw [List.takeWhile_append_of_pos hc]
  cases tail with
  | nil => simp
  | cons c tail => simp [ht c rfl]

theorem dropWhile_digits (hc : areDigits cs) (ht : ∀ c ∈ tail.head?, c.isDigit = false) :
    (cs ++ tail).dropWhile Char.isDigit = tail := by
  rw [List.dropWhile_append_of_pos hc]
  cases tail with
  | nil => rfl
  | cons c tail => simp [ht c rfl]

theorem readDecimal_whole (hw : areDigits whole) (hne : whole ≠ [])
    (ht : ∀ c ∈ tail.head?, c.isDigit = false ∧ c ≠ '.') (negative : Bool) :
    readDecimal negative (whole ++ tail) =
      (readExponent tail).map fun e => ofDecimal negative (natOfDigits whole) e := by
  have htail : ∀ c ∈ tail.head?, c.isDigit = false := fun c hc => (ht c hc).1
  have hempty : whole.isEmpty = false := List.isEmpty_eq_false_iff.2 hne
  simp only [readDecimal, takeWhile_digits hw htail, dropWhile_digits hw htail, hempty]
  split
  · exact absurd rfl (ht '.' rfl).2
  · simp

theorem readDecimal_fraction (hw : areDigits whole) (hne : whole ≠ []) (hf : areDigits fraction)
    (ht : ∀ c ∈ tail.head?, c.isDigit = false) (negative : Bool) :
    readDecimal negative (whole ++ '.' :: (fraction ++ tail)) =
      (readExponent tail).map fun e =>
        ofDecimal negative (natOfDigits (whole ++ fraction)) (e - fraction.length) := by
  have hdot : ∀ c ∈ ('.' :: (fraction ++ tail)).head?, c.isDigit = false := by
    rintro c ⟨⟩
    rfl
  have hempty : whole.isEmpty = false := List.isEmpty_eq_false_iff.2 hne
  simp [readDecimal, takeWhile_digits hw hdot, dropWhile_digits hw hdot, takeWhile_digits hf ht,
    dropWhile_digits hf ht, hempty]

theorem readDecimal_point (hw : areDigits whole) (hne : whole ≠ []) (hf : areDigits fraction) :
    readDecimal false (whole ++ '.' :: fraction) =
      some (ofRat false (natOfDigits (whole ++ fraction) * 10 ^ (-fraction.length : ℤ))) := by
  have hnone : ∀ c ∈ ([] : List Char).head?, c.isDigit = false := nofun
  have h := readDecimal_fraction hw hne hf hnone false
  rw [List.append_nil] at h
  rw [h, readExponent, Option.map_some, ofDecimal_eq, zero_sub]

theorem readDecimal_write (l : Layout) (hd : areDigits ds) (hne : ds ≠ []) (place : ℤ) :
    readDecimal false (l.write ds place) = some (ofRat false (natOfDigits ds * 10 ^ place)) := by
  have hlength : 0 < ds.length := List.length_pos_iff.2 hne
  have htake (k : ℕ) : areDigits (ds.take k) := fun c hc => hd c (List.mem_of_mem_take hc)
  have hdrop (k : ℕ) : areDigits (ds.drop k) := fun c hc => hd c (List.mem_of_mem_drop hc)
  have htakene (k : ℕ) : ds.take (k + 1) ≠ [] := by simpa using hne
  unfold Layout.write
  dsimp only
  generalize hfirst : place + ds.length - 1 = first
  split
  · split
    · next h =>
      -- Zeros and a fraction behind the digits.
      obtain ⟨k, rfl⟩ := Int.eq_ofNat_of_zero_le h
      refine (readDecimal_point (hd.append (areDigits_zeros k))
        (List.append_ne_nil_of_left_ne_nil hne _) (areDigits_zeros 1)).trans ?_
      rw [natOfDigits_append, natOfDigits_append, natOfDigits_zeros, natOfDigits_zeros]
      congr 2
      push_cast
      simp
      field_simp
    split
    · next hplace hpos =>
      -- The point among the digits.
      have hexponent : (-(ds.drop (first.toNat + 1)).length : ℤ) = place := by
        rw [List.length_drop]
        omega
      rw [readDecimal_point (htake _) (htakene _) (hdrop _), List.take_append_drop, hexponent]
    · next hplace hneg =>
      -- Zeros in front of the digits.
      have hexponent : (-(List.replicate (-first - 1).toNat '0' ++ ds).length : ℤ) = place := by
        rw [List.length_append, List.length_replicate]
        omega
      refine (readDecimal_point (areDigits_zeros 1) (List.cons_ne_nil _ _)
        ((areDigits_zeros (-first - 1).toNat).append hd)).trans ?_
      rw [hexponent, natOfDigits_append, natOfDigits_append, natOfDigits_zeros, natOfDigits_zeros,
        mul_zero, zero_add, mul_zero, zero_add]
  · have hfold := readExponent_padded l.exponentWidth first
    split
    · next h =>
      -- One digit and an exponent.
      have hone : ds.take 1 = ds := List.take_of_length_le h
      have hplace : first = place := by omega
      rw [hone, List.append_nil, readDecimal_whole hd hne ?_, hfold, Option.map_some,
        ofDecimal_eq, hplace]
      rintro c ⟨⟩
      decide
    · next h =>
      -- A point behind the first digit, and an exponent.
      have hexponent : first - (ds.drop 1).length = place := by
        rw [List.length_drop]
        omega
      rw [List.append_assoc, List.cons_append,
        readDecimal_fraction (htake 1) (htakene 0) (hdrop 1) ?_, hfold, Option.map_some, List.take_append_drop, ofDecimal_eq, hexponent]
      rintro c ⟨⟩
      decide

/-- The text of a number of the format that is not negative is read back as the number. -/
theorem readDecimal_text (hx : (finite false m e).InFormat) :
    readDecimal false (finite false m e).text.toList = some (.finite false m e) := by
  obtain rfl | hm := Nat.eq_zero_or_pos m
  · obtain ⟨-, -, -, rfl | h⟩ := hx
    · decide
    · cases h
  have hreads := ofDecimal_shortest hx hm
  have hn : 0 < (shortest m e).1 := by
    refine Nat.pos_of_ne_zero fun h => ?_
    rw [h, ofDecimal, if_pos rfl, zero, finite.injEq] at hreads
    exact hm.ne hreads.2.1
  have htext : (finite false m e).text.toList =
      layout.write (trimmed (shortest m e).1 (shortest m e).2).1
        (trimmed (shortest m e).1 (shortest m e).2).2 := by
    simp [text, if_neg hm.ne']
  rw [htext, readDecimal_write _ (areDigits_trimmed _ _) (trimmed_ne_nil hn), trimmed_spec,
    ← ofDecimal_eq, hreads]

theorem inFormat_ofDecimal (negative : Bool) (n : ℕ) (e : ℤ) :
    (ofDecimal negative n e).InFormat := by
  rw [ofDecimal_eq]
  exact inFormat_ofRat (mul_nonneg n.cast_nonneg (ten_zpow_pos e).le)

theorem inFormat_of_readDecimal {negative : Bool} {x : Binary64}
    (h : readDecimal negative cs = some x) : x.InFormat := by
  unfold readDecimal at h
  dsimp only at h
  split at h <;> split at h
  · cases h
  · obtain ⟨e, -, rfl⟩ := Option.map_eq_some_iff.1 h
    exact inFormat_ofDecimal ..
  · cases h
  · obtain ⟨e, -, rfl⟩ := Option.map_eq_some_iff.1 h
    exact inFormat_ofDecimal ..

def isFigure (c : Char) : Bool := c.isDigit || c = '.' || c = 'e' || c = '+' || c = '-'

theorem isFigure_of_isDigit {c : Char} (h : c.isDigit) : isFigure c := by simp [isFigure, h]

theorem isFigure_of_mem_write {l : Layout} (hd : areDigits ds) :
    ∀ c ∈ l.write ds place, isFigure c := by
  have hfigure {cs : List Char} (h : areDigits cs) : ∀ c ∈ cs, isFigure c :=
    fun c hc => isFigure_of_isDigit (h c hc)
  have htake (k : ℕ) : ∀ c ∈ ds.take k, isFigure c :=
    fun c hc => hfigure hd c (List.mem_of_mem_take hc)
  have hdrop (k : ℕ) : ∀ c ∈ ds.drop k, isFigure c :=
    fun c hc => hfigure hd c (List.mem_of_mem_drop hc)
  have hzeros (k : ℕ) := hfigure (areDigits_zeros k)
  have hpadded (n : ℕ) := hfigure (areDigits_padded l.exponentWidth n)
  have hmarks : isFigure '0' ∧ isFigure '.' ∧ isFigure 'e' ∧ isFigure '+' ∧ isFigure '-' := by
    decide
  replace hd := hfigure hd
  clear hfigure
  unfold Layout.write
  dsimp only
  split_ifs <;> grind

theorem isFigure_of_mem_text {negative : Bool} {c : Char}
    (hc : c ∈ (finite negative m e).text.toList) : isFigure c := by
  simp only [text, String.toList_ofList] at hc
  generalize hmagnitude : (if m = 0 then _ else _ : List Char) = magnitude at hc
  have hfigure : ∀ c ∈ magnitude, isFigure c := by
    rw [← hmagnitude]
    split
    · simp [isFigure]
    · exact isFigure_of_mem_write (areDigits_trimmed _ _)
  cases negative with
  | false => exact hfigure c hc
  | true =>
    obtain rfl | hc := List.mem_cons.1 hc
    · rfl
    · exact hfigure c hc

end EmbeddedTemplate.Binary64
