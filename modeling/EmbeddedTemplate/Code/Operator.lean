import EmbeddedTemplate.Code.Token

/-!
The operators and how tightly they bind. Binary operators have the tiers `0` to `10`, from loose to
tight; above them are the unary operators and the forms that follow their operand.
-/

namespace EmbeddedTemplate.Code

inductive Assoc
  | left
  | right
  /-- The tier takes one operator only. -/
  | single
deriving DecidableEq, Repr

def unaryTier : Nat := 11

def tightTier : Nat := 12

def assoc : (tier : Nat) → Assoc
  | 0 => .single
  | 1 | 8 => .right
  | _ => .left

namespace Terminal

def tier? : Terminal → Option Nat
  | .sign .leftArrow => some 0
  | .sign .binds => some 1
  | .sign .pipe => some 2
  | .word .orWord | .sign .orOr => some 3
  | .word .andWord | .sign .andAnd => some 4
  | .sign .equal | .sign .unequal | .sign .strictEqual | .sign .strictUnequal => some 5
  | .sign .less | .sign .greater | .sign .lessEqual | .sign .greaterEqual => some 6
  | .word .inWord => some 7
  | .sign .concat | .sign .plusPlus | .sign .minusMinus => some 8
  | .sign .plus | .sign .minus => some 9
  | .sign .star | .sign .slash => some 10
  | _ => none

def isUnary : Terminal → Bool
  | .word .notWord | .sign .bang | .sign .minus | .sign .plus => true
  | _ => false

theorem tier?_lt {t : Terminal} {k : Nat} (h : t.tier? = some k) : k < unaryTier := by
  unfold tier? at h
  split at h <;> simp_all [unaryTier] <;> omega

end Terminal

def spelled? (name : String) : Option Terminal :=
  (Word.all.map Terminal.word ++ Sign.all.map Terminal.sign).find? fun t => t.text? = some name

def binaryTier? (name : String) : Option Nat := (spelled? name).bind Terminal.tier?

def isUnaryName (name : String) : Bool := (spelled? name).any Terminal.isUnary

end EmbeddedTemplate.Code
