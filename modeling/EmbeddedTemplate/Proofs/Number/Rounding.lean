import EmbeddedTemplate.Number.Decimal
import Mathlib.Algebra.Order.Floor.Semifield
import Mathlib.Data.Int.Log
import Mathlib.Data.Rat.Floor
import Mathlib.Tactic.FieldSimp
import Mathlib.Tactic.Linarith
import Mathlib.Tactic.Positivity
import Mathlib.Tactic.Ring

/-!
What number a fraction or a decimal is rounded to. It depends on the rational number only, not on
how that is written, and is every number of the format that is near enough.
-/

namespace EmbeddedTemplate.Binary64

variable {num den m : ℕ} {e : ℤ} {q : ℚ} {n : ℕ} {negative : Bool}

def nearest (q : ℚ) : ℕ :=
  if q - ⌊q⌋₊ < 1 / 2 ∨ q - ⌊q⌋₊ = 1 / 2 ∧ ⌊q⌋₊ % 2 = 0 then ⌊q⌋₊ else ⌊q⌋₊ + 1

theorem roundHalfEven_eq (num : ℕ) (hd : 0 < den) :
    roundHalfEven num den = nearest (num / den) := by
  have hd' : (0 : ℚ) < den := Nat.cast_pos.2 hd
  have hfloor : ⌊(num / den : ℚ)⌋₊ = num / den := Nat.floor_div_eq_div num den
  have hrest : (num / den : ℚ) - (num / den : ℕ) = (num % den : ℕ) / den := by
    have h : ((den * (num / den) + num % den : ℕ) : ℚ) = num :=
      congrArg Nat.cast (Nat.div_add_mod num den)
    rw [eq_div_iff hd'.ne', sub_mul, div_mul_cancel₀ _ hd'.ne', ← h]
    push_cast
    ring
  have hlt : ((num % den : ℕ) / den : ℚ) < 1 / 2 ↔ 2 * (num % den) < den := by
    rw [div_lt_div_iff₀ hd' two_pos, one_mul, mul_comm]
    exact_mod_cast Iff.rfl
  have heq : ((num % den : ℕ) / den : ℚ) = 1 / 2 ↔ 2 * (num % den) = den := by
    rw [div_eq_div_iff hd'.ne' two_ne_zero, one_mul, mul_comm]
    exact_mod_cast Iff.rfl
  simp only [roundHalfEven, nearest, hfloor, hrest, hlt, heq, Bool.or_eq_true, Bool.and_eq_true,
    decide_eq_true_eq]

theorem nearest_eq_of_abs_lt (h : |q - n| < 1 / 2) : nearest q = n := by
  obtain ⟨hl, hu⟩ := abs_lt.1 h
  obtain hle | hlt := le_or_gt (n : ℚ) q
  · have hfloor : ⌊q⌋₊ = n := (Nat.floor_eq_iff (n.cast_nonneg.trans hle)).2 ⟨hle, by linarith⟩
    rw [nearest, hfloor, if_pos (.inl hu)]
  · cases n with
    | zero =>
      have hfloor : ⌊q⌋₊ = 0 := Nat.floor_of_nonpos (by exact_mod_cast hlt.le)
      rw [nearest, hfloor, if_pos (.inl hu)]
    | succ k =>
      push_cast at hl hlt
      have hfloor : ⌊q⌋₊ = k :=
        (Nat.floor_eq_iff (by linarith [k.cast_nonneg (α := ℚ)])).2 ⟨by linarith, hlt⟩
      rw [nearest, hfloor, if_neg]
      rintro (h | ⟨h, -⟩) <;> linarith

theorem le_nearest (h : n ≤ q) : n ≤ nearest q := by
  have := Nat.le_floor h
  unfold nearest
  split <;> omega

theorem nearest_le (hq : 0 ≤ q) (h : q < n) : nearest q ≤ n := by
  have := (Nat.floor_lt hq).2 h
  unfold nearest
  split <;> omega

theorem abs_nearest_sub_le (hq : 0 ≤ q) : |nearest q - q| ≤ 1 / 2 := by
  have hl := Nat.floor_le hq
  have hu := Nat.lt_floor_add_one q
  unfold nearest
  split
  · next h =>
    rw [abs_le]
    obtain h | ⟨h, -⟩ := h <;> constructor <;> linarith
  · next h =>
    have : 1 / 2 ≤ q - ⌊q⌋₊ := not_lt.1 fun hlt => h (.inl hlt)
    push_cast
    rw [abs_le]
    constructor <;> linarith

theorem zpow_eq_div {b : ℚ} (hb : b ≠ 0) (e : ℤ) : b ^ e = b ^ e.toNat / b ^ (-e).toNat := by
  rw [← zpow_natCast, ← zpow_natCast, ← zpow_sub₀ hb]
  congr 1
  omega

theorem powLe_iff {b : ℕ} (hb : 0 < b) (hd : 0 < den) :
    powLe b e num den ↔ (b : ℚ) ^ e ≤ num / den := by
  have hb' : (0 : ℚ) < b := Nat.cast_pos.2 hb
  rw [powLe, decide_eq_true_eq, zpow_eq_div hb'.ne', div_le_div_iff₀ (by positivity)
    (Nat.cast_pos.2 hd), ← Nat.cast_le (α := ℚ), mul_comm]
  push_cast [Nat.pow_eq]
  rfl

theorem log_div {b : ℕ} (hb : 1 < b) (hn : 0 < num) (hd : 0 < den) :
    Int.log b (num / den : ℚ) = if powLe b (Nat.log b num - Nat.log b den) num den then
      (Nat.log b num - Nat.log b den : ℤ) else Nat.log b num - Nat.log b den - 1 := by
  have hb' : (0 : ℚ) < b := Nat.cast_pos.2 (by omega)
  have hn' : (0 : ℚ) < num := Nat.cast_pos.2 hn
  have hd' : (0 : ℚ) < den := Nat.cast_pos.2 hd
  have hq : (0 : ℚ) < num / den := div_pos hn' hd'
  have hnl : (b : ℚ) ^ (Nat.log b num : ℤ) ≤ num := by
    exact_mod_cast Nat.pow_log_le_self b hn.ne'
  have hnu : (num : ℚ) < b ^ (Nat.log b num + 1 : ℤ) := by
    exact_mod_cast Nat.lt_pow_succ_log_self hb num
  have hdl : (b : ℚ) ^ (Nat.log b den : ℤ) ≤ den := by
    exact_mod_cast Nat.pow_log_le_self b hd.ne'
  have hdu : (den : ℚ) < b ^ (Nat.log b den + 1 : ℤ) := by
    exact_mod_cast Nat.lt_pow_succ_log_self hb den
  generalize (Nat.log b num : ℤ) = i at *
  generalize (Nat.log b den : ℤ) = j at *
  have hpos (k : ℤ) : (0 : ℚ) ≤ b ^ k := (zpow_pos hb' k).le
  -- The quotient is between two powers whose exponents are two apart.
  have hlower : (b : ℚ) ^ (i - j - 1) ≤ num / den := by
    rw [le_div_iff₀ hd']
    calc (b : ℚ) ^ (i - j - 1) * den ≤ b ^ (i - j - 1) * b ^ (j + 1) :=
          mul_le_mul_of_nonneg_left hdu.le (hpos _)
      _ = b ^ i := by rw [← zpow_add₀ hb'.ne']; congr 1; ring
      _ ≤ num := hnl
  have hupper : (num / den : ℚ) < b ^ (i - j + 1) := by
    rw [div_lt_iff₀ hd']
    calc (num : ℚ) < b ^ (i + 1) := hnu
      _ = b ^ (i - j + 1) * b ^ j := by rw [← zpow_add₀ hb'.ne']; congr 1; ring
      _ ≤ b ^ (i - j + 1) * den := mul_le_mul_of_nonneg_left hdl (hpos _)
  rw [Int.zpow_le_iff_le_log hb hq] at hlower
  rw [Int.lt_zpow_iff_log_lt hb hq] at hupper
  split
  · next h =>
    rw [powLe_iff (by omega) hd, Int.zpow_le_iff_le_log hb hq] at h
    omega
  · next h =>
    rw [powLe_iff (by omega) hd, Int.zpow_le_iff_le_log hb hq] at h
    omega

theorem floorLog2_eq (hn : 0 < num) (hd : 0 < den) :
    floorLog2 num den = Int.log 2 (num / den : ℚ) := by
  rw [log_div one_lt_two hn hd]
  simp only [floorLog2, Nat.log2_eq_log_two]

theorem digitCount_eq (hn : 0 < n) : digitCount n = Nat.log 10 n + 1 := by
  have hle (k : ℕ) (hk : 0 < k) : digitCount n ≤ k ↔ Nat.log 10 n < k := by
    rw [digitCount, Nat.length_toDigits_le_iff (by norm_num) hk,
      Nat.log_lt_iff_lt_pow (by norm_num) hn.ne']
  have := hle (Nat.log 10 n + 1) (by omega)
  have := hle (digitCount n) Nat.length_toDigits_pos
  omega

theorem zpow_digitCount_le (hn : 0 < n) : (10 : ℚ) ^ (digitCount n - 1 : ℤ) ≤ n := by
  rw [digitCount_eq hn]
  push_cast
  rw [add_sub_cancel_right]
  exact_mod_cast Nat.pow_log_le_self 10 hn.ne'

theorem lt_zpow_digitCount (hn : 0 < n) : (n : ℚ) < 10 ^ (digitCount n : ℤ) := by
  rw [digitCount_eq hn]
  exact_mod_cast Nat.lt_pow_succ_log_self (by norm_num) n

theorem floorLog10_eq (hn : 0 < num) (hd : 0 < den) :
    floorLog10 num den = Int.log 10 (num / den : ℚ) := by
  rw [log_div (by norm_num) hn hd]
  have : (digitCount num - digitCount den : ℤ) = Nat.log 10 num - Nat.log 10 den := by
    rw [digitCount_eq hn, digitCount_eq hd]
    push_cast
    ring
  simp only [floorLog10, this]

def bounded (negative : Bool) (m : ℕ) (e : ℤ) : Binary64 :=
  if maxExponent < e then .infinite negative else .finite negative m e

theorem inFormat_bounded (hm : m < 2 ^ 53) (he : minExponent ≤ e)
    (h : e = minExponent ∨ 2 ^ 52 ≤ m) : (bounded negative m e).InFormat := by
  unfold bounded
  split
  · trivial
  · exact ⟨hm, he, by omega, h⟩

/-- The exponent of the numbers of the format around a positive number. -/
def exponentOf (q : ℚ) : ℤ := max (Int.log 2 q - 52) minExponent

def ofRat (negative : Bool) (q : ℚ) : Binary64 :=
  let e := exponentOf q
  let m := nearest (q / 2 ^ e)
  if q = 0 then zero negative
  else if m = 2 ^ 53 then bounded negative (2 ^ 52) (e + 1)
  else bounded negative m e

theorem two_zpow_pos (e : ℤ) : (0 : ℚ) < 2 ^ e := zpow_pos two_pos e

theorem two_zpow_eq_div (e : ℤ) : (2 : ℚ) ^ e = 2 ^ e.toNat / 2 ^ (-e).toNat :=
  zpow_eq_div two_ne_zero e

theorem ofRatio_eq (negative : Bool) (num : ℕ) (hd : 0 < den) :
    ofRatio negative num den = ofRat negative (num / den) := by
  have hd' : (den : ℚ) ≠ 0 := Nat.cast_ne_zero.2 hd.ne'
  obtain rfl | hn := Nat.eq_zero_or_pos num
  · simp [ofRatio, ofRat]
  · have hq : (num / den : ℚ) ≠ 0 := div_ne_zero (Nat.cast_ne_zero.2 hn.ne') hd'
    have he : max (floorLog2 num den - 52) minExponent = exponentOf (num / den) := by
      rw [floorLog2_eq hn hd, exponentOf]
    have hm (e : ℤ) : roundHalfEven (num * 2 ^ (-e).toNat) (den * 2 ^ e.toNat) =
        nearest (num / den / 2 ^ e) := by
      rw [roundHalfEven_eq _ (by positivity), two_zpow_eq_div]
      congr 1
      push_cast
      field_simp
    simp only [ofRatio, if_neg hn.ne', he, Nat.pow_eq, hm, ofRat, if_neg hq, bounded]
    by_cases hc : nearest (num / den / 2 ^ exponentOf (num / den)) = 2 ^ 53
    · simp only [if_pos hc]
    · simp only [if_neg hc]

theorem ofRat_of_le (h : 2 ^ (1024 : ℤ) ≤ q) : ofRat negative q = .infinite negative := by
  have hq : 0 < q := (two_zpow_pos _).trans_le h
  have hlog : 1024 ≤ Int.log 2 q := (Int.zpow_le_iff_le_log one_lt_two hq).1 h
  have he : maxExponent < exponentOf q := by
    unfold exponentOf maxExponent minExponent
    omega
  simp only [ofRat, if_neg hq.ne', bounded, if_pos he, if_pos (he.trans (Int.lt_succ _)), ite_self]

theorem ofRat_of_lt (hq : 0 ≤ q) (h : q < 2 ^ (-1075 : ℤ)) : ofRat negative q = zero negative := by
  obtain rfl | hq := hq.eq_or_lt
  · simp [ofRat]
  have hlog : Int.log 2 q < -1075 := (Int.lt_zpow_iff_log_lt one_lt_two hq).1 h
  have he : exponentOf q = minExponent := by
    unfold exponentOf minExponent
    omega
  have hm : nearest (q / 2 ^ minExponent) = 0 := by
    refine nearest_eq_of_abs_lt ?_
    rw [Nat.cast_zero, sub_zero, abs_of_pos (div_pos hq (two_zpow_pos _)),
      div_lt_iff₀ (two_zpow_pos _)]
    refine h.trans_eq ?_
    rw [minExponent, show (-1075 : ℤ) = -1 + -1074 by rfl, zpow_add₀ two_ne_zero, zpow_neg_one,
      one_div]
  simp only [ofRat, if_neg hq.ne', he, hm]
  rfl

theorem ten_zpow_pos (e : ℤ) : (0 : ℚ) < 10 ^ e := zpow_pos (by norm_num) e

theorem two_zpow_le_ten_zpow : (2 : ℚ) ^ (1024 : ℤ) ≤ 10 ^ (310 : ℤ) := by
  have : 2 ^ 1024 ≤ 10 ^ 310 := by decide +kernel
  rw [zpow_ofNat, zpow_ofNat]
  exact_mod_cast this

theorem ten_zpow_lt_two_zpow : (10 : ℚ) ^ (-331 : ℤ) < 2 ^ (-1075 : ℤ) := by
  have : 2 ^ 1075 < 10 ^ 331 := by decide +kernel
  rw [zpow_neg, zpow_neg, inv_lt_inv₀ (ten_zpow_pos _) (two_zpow_pos _), zpow_ofNat, zpow_ofNat]
  exact_mod_cast this

theorem ofDecimal_eq (negative : Bool) (n : ℕ) (e : ℤ) :
    ofDecimal negative n e = ofRat negative (n * 10 ^ e) := by
  obtain rfl | hn := Nat.eq_zero_or_pos n
  · simp [ofDecimal, ofRat]
  have hten : (10 : ℚ) ≠ 0 := by norm_num
  rw [ofDecimal]
  simp only [if_neg hn.ne']
  split
  · next h =>
    refine (ofRat_of_le ?_).symm
    calc (2 : ℚ) ^ (1024 : ℤ) ≤ 10 ^ (310 : ℤ) := two_zpow_le_ten_zpow
      _ ≤ 10 ^ (digitCount n - 1 + e : ℤ) := zpow_le_zpow_right₀ (by norm_num) (by omega)
      _ = 10 ^ (digitCount n - 1 : ℤ) * 10 ^ e := zpow_add₀ hten ..
      _ ≤ n * 10 ^ e := mul_le_mul_of_nonneg_right (zpow_digitCount_le hn) (ten_zpow_pos e).le
  split
  · next h =>
    refine (ofRat_of_lt (mul_nonneg n.cast_nonneg (ten_zpow_pos e).le) ?_).symm
    calc (n * 10 ^ e : ℚ) < 10 ^ (digitCount n : ℤ) * 10 ^ e :=
          mul_lt_mul_of_pos_right (lt_zpow_digitCount hn) (ten_zpow_pos e)
      _ = 10 ^ (digitCount n + e : ℤ) := (zpow_add₀ hten ..).symm
      _ ≤ 10 ^ (-331 : ℤ) := zpow_le_zpow_right₀ (by norm_num) (by omega)
      _ < 2 ^ (-1075 : ℤ) := ten_zpow_lt_two_zpow
  · rw [ofRatio_eq _ _ (by simp only [Nat.pow_eq]; positivity), zpow_eq_div hten]
    congr 1
    push_cast [Nat.pow_eq]
    field_simp

theorem lt_mul_zpow_log (q : ℚ) : q < 2 ^ 53 * 2 ^ exponentOf q := by
  refine (Int.lt_zpow_succ_log_self one_lt_two q).trans_le ?_
  rw [← zpow_ofNat, ← zpow_add₀ two_ne_zero]
  refine zpow_le_zpow_right₀ one_le_two ?_
  unfold exponentOf
  omega

theorem inFormat_ofRat (hq : 0 ≤ q) : (ofRat negative q).InFormat := by
  have he : minExponent ≤ exponentOf q := le_max_right ..
  have hle : nearest (q / 2 ^ exponentOf q) ≤ 2 ^ 53 := by
    refine nearest_le (div_nonneg hq (two_zpow_pos _).le) ?_
    rw [div_lt_iff₀ (two_zpow_pos _)]
    exact_mod_cast lt_mul_zpow_log q
  unfold ofRat
  dsimp only
  split
  · exact ⟨by norm_num, le_rfl, by decide, .inl rfl⟩
  next hne =>
  split
  · exact inFormat_bounded (by norm_num) (by omega) (.inr le_rfl)
  next hm =>
  refine inFormat_bounded (by omega) he ?_
  -- Above the least exponent, that of the number was chosen such that the mantissa is full.
  obtain h | h := max_choice (Int.log 2 q - 52) minExponent
  · refine .inr (le_nearest ?_)
    rw [le_div_iff₀ (two_zpow_pos _), exponentOf, h]
    have hsplit : (2 : ℚ) ^ Int.log 2 q = 2 ^ 52 * 2 ^ (Int.log 2 q - 52) := by
      rw [← zpow_ofNat, ← zpow_add₀ two_ne_zero]
      congr 1
      ring
    have := Int.zpow_log_le_self one_lt_two (lt_of_le_of_ne hq (Ne.symm hne))
    exact_mod_cast hsplit ▸ this
  · exact .inl h

theorem zpow_add_nat_le_iff (hq : 0 < q) (k : ℕ) (e : ℤ) :
    2 ^ k * 2 ^ e ≤ q ↔ k + e ≤ Int.log 2 q := by
  rw [← Int.zpow_le_iff_le_log one_lt_two hq, Nat.cast_ofNat, zpow_add₀ two_ne_zero, zpow_natCast]

theorem ofRat_of_exponentOf (hq : q ≠ 0) (he : exponentOf q = e) (hn : nearest (q / 2 ^ e) = n) :
    ofRat negative q =
      if n = 2 ^ 53 then bounded negative (2 ^ 52) (e + 1) else bounded negative n e := by
  simp only [ofRat, if_neg hq, he, hn]

/--
A number of the format is read back from all numbers whose distance from it is less than a
`2 ^ 54`-th of it.
-/
theorem ofRat_of_abs_sub_lt (hx : (finite negative m e).InFormat)
    (h : |q - m * 2 ^ e| < m * 2 ^ e / 2 ^ 54) : ofRat negative q = .finite negative m e := by
  obtain ⟨hm, hmin, hmax, hleast⟩ := hx
  have hu := two_zpow_pos e
  obtain ⟨t, rfl⟩ : ∃ t, q = t * 2 ^ e := ⟨q / 2 ^ e, (div_mul_cancel₀ _ hu.ne').symm⟩
  have ht : |t - m| < m / 2 ^ 54 := by
    rw [← sub_mul, abs_mul, abs_of_pos hu, mul_div_right_comm] at h
    exact lt_of_mul_lt_mul_right h hu.le
  obtain ⟨hl, hr⟩ := abs_lt.1 ht
  have hm53 : (m : ℚ) + 1 ≤ 2 ^ 53 := by exact_mod_cast hm
  have hm0 : (0 : ℚ) < m := by linarith [abs_nonneg (t - m)]
  have ht0 : 0 < t := by linarith
  have hq : 0 < t * 2 ^ e := mul_pos ht0 hu
  have hle (k : ℕ) : k + e ≤ Int.log 2 (t * 2 ^ e) ↔ 2 ^ k ≤ t := by
    rw [← zpow_add_nat_le_iff hq, mul_le_mul_iff_left₀ hu]
  have hlog : ¬(53 : ℕ) + e ≤ Int.log 2 (t * 2 ^ e) := by
    rw [hle]
    linarith
  by_cases hcase : e = minExponent ∨ 2 ^ 52 ≤ t
  · have he : exponentOf (t * 2 ^ e) = e := by
      rw [← hle] at hcase
      unfold exponentOf
      omega
    have hn : nearest (t * 2 ^ e / 2 ^ e) = m := by
      rw [mul_div_cancel_right₀ _ hu.ne']
      exact nearest_eq_of_abs_lt (ht.trans (by linarith))
    rw [ofRat_of_exponentOf hq.ne' he hn, if_neg (show m ≠ 2 ^ 53 from hm.ne), bounded,
      if_neg hmax.not_gt]
  · -- Just below a power of two the numbers of the format are twice as dense.
    rw [not_or, not_le] at hcase
    obtain ⟨hne, ht52⟩ := hcase
    have hm52 : m = 2 ^ 52 := by
      have hge : 2 ^ 52 ≤ m := hleast.resolve_left hne
      have : (m : ℚ) < 2 ^ 52 + 1 := by linarith
      have : m < 2 ^ 52 + 1 := by exact_mod_cast this
      omega
    subst hm52
    push_cast at hl hr
    have he : exponentOf (t * 2 ^ e) = e - 1 := by
      have h51 := (hle 51).2 (by linarith)
      have h52 := (hle 52).not.2 (by linarith)
      unfold exponentOf
      omega
    have hn : nearest (t * 2 ^ e / 2 ^ (e - 1)) = 2 ^ 53 := by
      have : t * 2 ^ e / 2 ^ (e - 1) = 2 * t := by
        rw [zpow_sub_one₀ two_ne_zero]
        field_simp
      rw [this]
      refine nearest_eq_of_abs_lt (abs_lt.2 ?_)
      push_cast
      constructor <;> linarith
    rw [ofRat_of_exponentOf hq.ne' he hn, if_pos rfl, sub_add_cancel, bounded,
      if_neg hmax.not_gt]

end EmbeddedTemplate.Binary64
