
namespace EmbeddedTemplate

/--
A number of the format. A finite one is `mantissa * 2 ^ exponent`; its mantissa has at most 53 bits,
and its exponent is the least of the format unless the mantissa has exactly 53.
-/
inductive Binary64
  | finite (negative : Bool) (mantissa : Nat) (exponent : Int)
  | infinite (negative : Bool)
  | nan
deriving DecidableEq, Repr, Inhabited

namespace Binary64

def minExponent : Int := -1074

def maxExponent : Int := 971

def InFormat : Binary64 → Prop
  | .finite _ m e =>
    m < Nat.pow 2 53 ∧ minExponent ≤ e ∧ e ≤ maxExponent ∧ (e = minExponent ∨ Nat.pow 2 52 ≤ m)
  | .infinite _ | .nan => True

instance : DecidablePred InFormat
  | .finite _ _ _ => inferInstanceAs (Decidable (_ ∧ _))
  | .infinite _ | .nan => isTrue trivial

def zero (negative : Bool) : Binary64 := .finite negative 0 minExponent

/-- The integer nearest to `num / den`; of two equally near ones the even one. -/
def roundHalfEven (num den : Nat) : Nat :=
  let below := num / den
  let rest := 2 * (num % den)
  if rest < den || (rest = den && below % 2 = 0) then below else below + 1

/-- `base ^ e ≤ num / den`, for exponents of either sign. -/
def powLe (base : Nat) (e : Int) (num den : Nat) : Bool :=
  den * Nat.pow base e.toNat ≤ num * Nat.pow base (-e).toNat

def floorLog2 (num den : Nat) : Int :=
  let guess : Int := num.log2 - den.log2
  if powLe 2 guess num den then guess else guess - 1

def ofRatio (negative : Bool) (num den : Nat) : Binary64 :=
  if num = 0 then zero negative
  else
    let e := max (floorLog2 num den - 52) minExponent
    let m := roundHalfEven (num * Nat.pow 2 (-e).toNat) (den * Nat.pow 2 e.toNat)
    let (m, e) := if m = Nat.pow 2 53 then (Nat.pow 2 52, e + 1) else (m, e)
    if maxExponent < e then .infinite negative else .finite negative m e

def digitCount (n : Nat) : Nat := (Nat.toDigits 10 n).length

/--
The number nearest to `digits * 10 ^ exponent`. Far outside the format's range the answer is known
without the power.
-/
def ofDecimal (negative : Bool) (digits : Nat) (exponent : Int) : Binary64 :=
  let magnitude := digitCount digits + exponent
  if digits = 0 then zero negative
  else if 310 < magnitude then .infinite negative
  else if magnitude < -330 then zero negative
  else ofRatio negative (digits * Nat.pow 10 exponent.toNat) (Nat.pow 10 (-exponent).toNat)

def toInt? : Binary64 → Option Int
  | .finite negative m e =>
    let whole : Nat := m * Nat.pow 2 e.toNat / Nat.pow 2 (-e).toNat
    if m % Nat.pow 2 (-e).toNat = 0 then some (if negative then -whole else whole) else none
  | _ => none

/-- Equality as a comparison of numbers: the two zeros are equal, and nothing equals `nan`. -/
def same : Binary64 → Binary64 → Bool
  | .finite n m e, .finite n' m' e' => m = m' && (m = 0 || (n = n' && e = e'))
  | .infinite n, .infinite n' => n = n'
  | _, _ => false

end Binary64

end EmbeddedTemplate
