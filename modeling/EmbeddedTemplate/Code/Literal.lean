import EmbeddedTemplate.Code.Token
import EmbeddedTemplate.Fault
import EmbeddedTemplate.Number.Decimal
import EmbeddedTemplate.Tree.Basic

/-!
The values of literals. The hard case is a string: its escapes are read from left to right, and a
fault in one names the stretch of bytes that it spoils. For that count a character beyond ASCII is
ten bytes long, and a backslash before such a character is six.
-/

namespace EmbeddedTemplate

/-- The characters that have a name, by their names. -/
class CharacterNames where
  named? : String → Option Char

/-- Code is read without a table of names unless one is given. -/
instance (priority := low) CharacterNames.none : CharacterNames := ⟨fun _ => .none⟩

namespace Code.Literal

variable [CharacterNames]

structure Escape where
  value : List Char
  length : Nat
  width : Nat

/-- A fault in an escape and the first and last byte that it spoils. -/
structure Spoilt where
  fault : EscapeFault
  start : Nat
  last : Nat

def isAscii (c : Char) : Bool := c.toNat < 0x80

def width (c : Char) : Nat := if isAscii c then 1 else 10

def widths : List Char → Nat
  | [] => 0
  | '\\' :: c :: cs => (if isAscii c then 2 else 16) + widths cs
  | c :: cs => width c + widths cs

def isOctal (c : Char) : Bool := '0' ≤ c && c ≤ '7'

def isHex (c : Char) : Bool := c.isDigit || ('a' ≤ c && c ≤ 'f') || ('A' ≤ c && c ≤ 'F')

def digitValue (c : Char) : Nat :=
  if c.isDigit then c.toNat - '0'.toNat
  else if 'a' ≤ c then c.toNat - 'a'.toNat + 10
  else c.toNat - 'A'.toNat + 10

def valueOf (base : Nat) (digits : List Char) : Nat :=
  digits.foldl (fun n c => base * n + digitValue c) 0

/-- The character of a code point; surrogates have none of their own. -/
def charOf (n : Nat) : Char := if n.isValidChar then Char.ofNat n else '\ufffd'

def numeric (start : Nat) (letter : Char) (count : Nat) (cs : List Char) :
    Except Spoilt Escape :=
  let digits := (cs.takeWhile isHex).take count
  let n := valueOf 16 digits
  if digits.length < count then
    .error ⟨.truncated letter count, start, start + 1 + digits.length⟩
  else if 0x10ffff < n then .error ⟨.noSuchCharacter, start, start + 1 + count⟩
  else .ok ⟨[charOf n], 1 + count, 2 + count⟩

def byName (start : Nat) : List Char → Except Spoilt Escape
  | '\x7b' :: cs =>
    let name := cs.takeWhile (· ≠ '\x7d')
    if name.length = cs.length then .error ⟨.malformedName, start, start + 2 + widths cs⟩
    else if name.isEmpty then .error ⟨.malformedName, start, start + 2⟩
    else match CharacterNames.named? (String.ofList name) with
      | some c => .ok ⟨[c], 3 + name.length, 4 + widths name⟩
      | none => .error ⟨.unknownName, start, start + 3 + widths name⟩
  | _ => .error ⟨.malformedName, start, start + 1⟩

def simple? : Char → Option (List Char)
  | '\\' => some ['\\']
  | '\'' => some ['\'']
  | '"' => some ['"']
  | 'a' => some ['\x07']
  | 'b' => some ['\x08']
  | 'f' => some ['\x0c']
  | 'n' => some ['\n']
  | 'r' => some ['\r']
  | 't' => some ['\t']
  | 'v' => some ['\x0b']
  | '\r' => some []
  | _ => none

/--
The escape whose backslash is at the byte `start` and before `cs`. A backslash that starts no escape
stands for itself.
-/
def escape (start : Nat) : List Char → Except Spoilt Escape
  | [] => .ok ⟨['\\'], 0, 1⟩
  | c :: cs =>
    match simple? c with
    | some value => .ok ⟨value, 1, 2⟩
    | none =>
      if isOctal c then
        let digits := ((c :: cs).takeWhile isOctal).take 3
        .ok ⟨[charOf (valueOf 8 digits)], digits.length, 1 + digits.length⟩
      else if c = 'x' then numeric start c 2 cs
      else if c = 'u' then numeric start c 4 cs
      else if c = 'U' then numeric start c 8 cs
      else if c = 'N' then byName start cs
      else if isAscii c then .ok ⟨['\\', c], 1, 2⟩
      else .ok ⟨['\\'], 0, 6⟩

/-- Reads escapes; the first `taken` characters belong to one already read. -/
def unescape : (taken start : Nat) → List Char → Except Spoilt (List Char)
  | _, _, [] => .ok []
  | taken + 1, start, _ :: cs => unescape taken start cs
  | 0, start, c :: cs => do
    let one ← if c = '\\' then escape start cs else .ok ⟨[c], 0, width c⟩
    return one.value ++ (← unescape one.length (start + one.width) cs)

/--
The line on which a text ends, and whether it ends at a carriage return: one after a backslash only
starts a new line.
-/
def lastLine (line : Nat) : List Char → Nat × Bool
  | '\\' :: '\r' :: cs => lastLine (line + 1) cs
  | '\\' :: _ :: cs => lastLine line cs
  | '\r' :: _ => (line, true)
  | _ :: cs => lastLine line cs
  | [] => (line, false)

def escapeBreaks (cs : List Char) : List Char :=
  cs.flatMap fun c => if c = '\n' then ['\\', 'n'] else [c]

def stringValue (body : List Char) : Except LiteralFault String :=
  let body := escapeBreaks body
  if body.contains '\x00' then .error .nul
  else match lastLine 1 body with
    | (line, true) => .error (.carriageReturn line)
    | (line, false) =>
      match unescape 0 0 body with
      | .ok cs => .ok (String.ofList cs)
      | .error e => .error (.badEscape e.fault e.start e.last line)

def intValue (digits : List Char) : Except LiteralFault Int :=
  if maxDigits < digits.length then .error (.tooManyDigits digits.length)
  else .ok (Binary64.natOfDigits digits)

def value (t : Token) : Except LiteralFault Tree :=
  let cs := t.text.toList
  let digits := cs.filter (· ≠ '_')
  match t.terminal with
  | .int => (intValue digits).map .int
  | .float => .ok (.float ((Binary64.readDecimal false digits).getD .nan))
  | .string => (stringValue (cs.drop 1).dropLast).map .str
  | .atom => .ok (.atom (String.ofList (cs.drop 1)))
  | .word .trueWord => .ok (.bool true)
  | .word .falseWord => .ok (.bool false)
  | _ => .ok .nil

end Code.Literal

end EmbeddedTemplate
