import EmbeddedTemplate.Code.Token

/-!
Splitting code into lexemes. At each place the classes are tried in a fixed order and the first that
matches takes as much as it can; code is rejected at the first character where no class matches.
-/

namespace EmbeddedTemplate.Code

def isNameStart (c : Char) : Bool := c.isLower || c = '_'

def isNameRest (c : Char) : Bool := c.isAlphanum || c = '_'

def isNameMark (c : Char) : Bool := c = '?' || c = '!'

def isDigitRest (c : Char) : Bool := c.isDigit || c = '_'

def isCodeBlank (c : Char) : Bool :=
  c = ' ' || c = '\t' || c = '\x0c' || c = '\r' || c = '\n'

inductive LexemeKind
  | blank
  | comment
  | terminal (t : Terminal)
deriving DecidableEq, Repr

namespace Lexeme

def nameRest (cs : List Char) : Nat := (cs.takeWhile isNameRest).length

def exponent : List Char → Nat
  | [] => 0
  | e :: cs =>
    let signed := match cs with
      | s :: _ => if s = '+' || s = '-' then 1 else 0
      | [] => 0
    let digits := ((cs.drop signed).takeWhile Char.isDigit).length
    if (e = 'e' || e = 'E') && 0 < digits then 1 + signed + digits else 0

def float? (c : Char) (cs : List Char) : Option Nat :=
  let whole := (cs.takeWhile isDigitRest).length
  match c.isDigit, cs.drop whole with
  | true, '.' :: d :: rest =>
    let fraction := (rest.takeWhile isDigitRest).length
    if d.isDigit then some (whole + 2 + fraction + exponent (rest.drop fraction)) else none
  | _, _ => none

def key? (c : Char) (cs : List Char) : Option Nat :=
  let name := nameRest cs
  let marks := ((cs.drop name).take 1).countP isNameMark
  match isNameStart c, cs.drop (name + marks) with
  | true, ':' :: ':' :: _ => none
  | true, ':' :: _ => some (name + marks + 1)
  | _, _ => none

def pathRest : List Char → Nat
  | '.' :: c :: cs => if c.isUpper then pathRest cs + 2 else 0
  | c :: cs => if isNameRest c then pathRest cs + 1 else 0
  | [] => 0

def modulePath? (c : Char) (cs : List Char) : Option Nat :=
  if c.isUpper then some (pathRest cs) else none

/-- A name with its mark, unless the mark belongs to an operator. -/
def name? (c : Char) (cs : List Char) : Option Nat :=
  let name := nameRest cs
  let marks := match cs.drop name with
    | m :: rest => if isNameMark m && rest.head? ≠ some '=' then 1 else 0
    | [] => 0
  if isNameStart c then some (name + marks) else none

def atom? (c : Char) : List Char → Option Nat
  | d :: cs =>
    let name := nameRest cs
    let marks := ((cs.drop name).take 1).countP isNameMark
    if c = ':' && (d.isAlpha || d = '_') then some (1 + name + marks) else none
  | [] => none

def stringRest : List Char → Option Nat
  | '\\' :: _ :: cs => (stringRest cs).map (· + 2)
  | '\\' :: [] => none
  | '"' :: _ => some 1
  | _ :: cs => (stringRest cs).map (· + 1)
  | [] => none

def string? (c : Char) (cs : List Char) : Option Nat :=
  if c = '"' then stringRest cs else none

def int? (c : Char) (cs : List Char) : Option Nat :=
  if c.isDigit then some (cs.takeWhile isDigitRest).length else none

def blank? (c : Char) (cs : List Char) : Option Nat :=
  if isCodeBlank c then some (cs.takeWhile isCodeBlank).length else none

def comment? (c : Char) (cs : List Char) : Option Nat :=
  if c = '#' then some (cs.takeWhile (· ≠ '\n')).length else none

/-- The class of the lexeme at the start of `c :: cs`, and how many characters of `cs` it takes. -/
def first? (c : Char) (cs : List Char) : Option (LexemeKind × Nat) :=
  let as (kind : LexemeKind) (length : Option Nat) := length.map (kind, ·)
  as (.terminal .float) (float? c cs)
    <|> as (.terminal .key) (key? c cs)
    <|> as (.terminal .modulePath) (modulePath? c cs)
    <|> as (.terminal .name) (name? c cs)
    <|> as (.terminal .atom) (atom? c cs)
    <|> as (.terminal .string) (string? c cs)
    <|> as (.terminal .int) (int? c cs)
    <|> as .blank (blank? c cs)
    <|> as .comment (comment? c cs)
    <|> (Sign.ofChars? (c :: cs)).map fun s => (.terminal (.sign s), s.chars.length - 1)

end Lexeme

structure Lexeme where
  kind : LexemeKind
  text : String
  line : Int
deriving DecidableEq, Repr

/-- The token that a lexeme is: blanks and comments are none, and a taken name is its word. -/
def Lexeme.token? (l : Lexeme) : Option Token :=
  match l.kind with
  | .terminal .name =>
    some ⟨((Word.ofText? l.text).map .word).getD .name, l.text, l.line⟩
  | .terminal t => some ⟨t, l.text, l.line⟩
  | _ => none

structure Lexed where
  lexemes : List Lexeme
  rejected : Option (Char × Int)
deriving Repr

namespace Lexed

def lineAfter (line : Int) (c : Char) : Int := if c = '\n' then line + 1 else line

/-- Splits code of which the first `taken` characters belong to a lexeme already found. -/
def scan : (taken : Nat) → (line : Int) → List Char → Lexed
  | _, _, [] => ⟨[], none⟩
  | taken + 1, line, c :: cs => scan taken (lineAfter line c) cs
  | 0, line, c :: cs =>
    match Lexeme.first? c cs with
    | none => ⟨[], some (c, line)⟩
    | some (kind, length) =>
      let rest := scan length (lineAfter line c) cs
      ⟨⟨kind, String.ofList (c :: cs.take length), line⟩ :: rest.lexemes, rest.rejected⟩

def ofCode (code : String) (line : Int) : Lexed := scan 0 line code.toList

def tokens (l : Lexed) : List Token := l.lexemes.filterMap Lexeme.token?

end Lexed

def tokens? (code : String) : Option (List Token) :=
  let lexed := Lexed.ofCode code 1
  if lexed.rejected.isNone then some lexed.tokens else none

end EmbeddedTemplate.Code
