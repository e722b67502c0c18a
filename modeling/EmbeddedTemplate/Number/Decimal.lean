import EmbeddedTemplate.Number.Binary64

namespace EmbeddedTemplate.Binary64

def floorLog10 (num den : Nat) : Int :=
  let guess : Int := digitCount num - digitCount den
  if powLe 10 guess num den then guess else guess - 1

/--
The multiple of `10 ^ place` that reads back as `m * 2 ^ e`: of the value's two neighbours on that
grid the nearer one, and the even one in a tie.
-/
def onGrid (m : Nat) (e place : Int) : Option Nat :=
  let num := m * Nat.pow 2 e.toNat * Nat.pow 10 (-place).toNat
  let den := Nat.pow 2 (-e).toNat * Nat.pow 10 place.toNat
  let candidates := [roundHalfEven num den, num / den, num / den + 1]
  candidates.find? fun d => ofDecimal false d place = .finite false m e

/--
The fewest digits, with the place of the last one, that read back as `m * 2 ^ e`. Seventeen always
do.
-/
def shortest (m : Nat) (e : Int) : Nat × Int :=
  let num := m * Nat.pow 2 e.toNat
  let den := Nat.pow 2 (-e).toNat
  let top := floorLog10 num den
  let grids := (List.range 17).map fun (count : Nat) => top - count
  (grids.findSome? fun place => (onGrid m e place).map (·, place)).getD (0, 0)

structure Layout where
  minPositional : Int
  maxPositional : Int
  exponentWidth : Nat

/--
Numbers from `0.0001` up to below `10 ^ 16` are positional and keep a fraction digit; other numbers
have an exponent with a sign and at least two digits.
-/
def layout : Layout := ⟨-4, 16, 2⟩

def padded (width n : Nat) : List Char :=
  let digits := Nat.toDigits 10 n
  List.replicate (width - digits.length) '0' ++ digits

/-- The text of `digits * 10 ^ place`, for digits without trailing zeros. -/
def Layout.write (l : Layout) (digits : List Char) (place : Int) : List Char :=
  let first := place + digits.length - 1
  if l.minPositional ≤ first && first < l.maxPositional then
    if 0 ≤ place then digits ++ List.replicate place.toNat '0' ++ ['.', '0']
    else if 0 ≤ first then
      digits.take (first.toNat + 1) ++ '.' :: digits.drop (first.toNat + 1)
    else '0' :: '.' :: List.replicate (-first - 1).toNat '0' ++ digits
  else
    let fraction := if digits.length ≤ 1 then [] else '.' :: digits.drop 1
    digits.take 1 ++ fraction ++ 'e' :: (if first < 0 then '-' else '+')
      :: padded l.exponentWidth first.natAbs

def trimmed (n : Nat) (place : Int) : List Char × Int :=
  let digits := Nat.toDigits 10 n
  let kept := (digits.reverse.dropWhile (· = '0')).reverse
  (kept, place + (digits.length - kept.length : Nat))

def text : Binary64 → String
  | .nan => "nan"
  | .infinite negative => if negative then "-inf" else "inf"
  | .finite negative m e =>
    let magnitude :=
      if m = 0 then ['0', '.', '0']
      else
        let (n, place) := shortest m e
        let (digits, place) := trimmed n place
        layout.write digits place
    String.ofList (if negative then '-' :: magnitude else magnitude)

def natOfDigits (cs : List Char) : Nat :=
  cs.foldl (fun n c => 10 * n + (c.toNat - '0'.toNat)) 0

theorem natOfDigits_eq (cs : List Char) : natOfDigits cs = Nat.ofDigitChars 10 cs 0 :=
  Nat.ofDigitChars_eq_foldl.symm

@[simp] theorem natOfDigits_toDigits (n : Nat) : natOfDigits (Nat.toDigits 10 n) = n := by
  rw [natOfDigits_eq, Nat.ofDigitChars_ten_toDigits]

def splitSign : List Char → Bool × List Char
  | '-' :: cs => (true, cs)
  | '+' :: cs => (false, cs)
  | cs => (false, cs)

def readExponent : List Char → Option Int
  | [] => some 0
  | c :: cs =>
    let (negative, digits) := splitSign cs
    if (c = 'e' || c = 'E') && !digits.isEmpty && digits.all Char.isDigit then
      some (if negative then -natOfDigits digits else natOfDigits digits)
    else none

def readDecimal (negative : Bool) (cs : List Char) : Option Binary64 :=
  let whole := cs.takeWhile Char.isDigit
  let rest := cs.dropWhile Char.isDigit
  let (fraction, rest) :=
    match rest with
    | '.' :: more => (more.takeWhile Char.isDigit, more.dropWhile Char.isDigit)
    | _ => ([], rest)
  if whole.isEmpty && fraction.isEmpty then none
  else (readExponent rest).map fun e =>
    ofDecimal negative (natOfDigits (whole ++ fraction)) (e - fraction.length)

def ofText? (s : String) : Option Binary64 :=
  let (negative, cs) := splitSign s.toList
  if cs = ['i', 'n', 'f'] then some (.infinite negative)
  else if cs = ['n', 'a', 'n'] then some .nan
  else readDecimal negative cs

end EmbeddedTemplate.Binary64
