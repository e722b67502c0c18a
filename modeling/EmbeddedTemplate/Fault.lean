import EmbeddedTemplate.Text.Quoted

namespace EmbeddedTemplate

/-- The name that templates must not use: it marks the places of sections in rebuilt blocks. -/
def reservedName : String := "__EEX__"

inductive EscapeFault
  | truncated (letter : Char) (digits : Nat)
  | noSuchCharacter
  | malformedName
  | unknownName
deriving DecidableEq, Repr

def EscapeFault.message : EscapeFault → String
  | .truncated letter digits =>
    "truncated " ++ String.ofList ('\\' :: letter :: List.replicate digits 'X') ++ " escape"
  | .noSuchCharacter => "illegal Unicode character"
  | .malformedName => "malformed \\N character escape"
  | .unknownName => "unknown Unicode character name"

/-- A literal of the right form without a value. Lines are those of the literal alone. -/
inductive LiteralFault
  /-- An escape that spoils the bytes from `start` to `last`; the string ends on `line`. -/
  | badEscape (fault : EscapeFault) (start last line : Nat)
  | carriageReturn (line : Nat)
  | nul
  | tooManyDigits (count : Nat)
deriving DecidableEq, Repr

def maxDigits : Nat := 4300

def LiteralFault.message : LiteralFault → String
  | .badEscape fault start last line =>
    "(unicode error) 'unicodeescape' codec can't decode bytes in position " ++ toString start
      ++ "-" ++ toString last ++ ": " ++ fault.message ++ " (<unknown>, line " ++ toString line
      ++ ")"
  | .carriageReturn line =>
    "unterminated string literal (detected at line " ++ toString line ++ ") (<unknown>, line 1)"
  | .nul => "source code string cannot contain null bytes"
  | .tooManyDigits count =>
    "Exceeds the limit (" ++ toString maxDigits ++ " digits) for integer string conversion: "
      ++ "value has " ++ toString count
      ++ " digits; use sys.set_int_max_str_digits() to increase the limit"

inductive Cause
  /-- No program continues with this token. -/
  | before (token : String)
  | character (c : Char)
  | endOfCode
  | literal (fault : LiteralFault)
  | unclosedTag
  | trailingComment (marker code : String)
  | reserved (marker code : String)
  | misplacedTag (code : String)
  | misplacedMarker (marker code : String)
  | unclosedBlock
  | unsupportedMarker (marker : String)
  | rejectedByEngine
  | other (text : String)
deriving DecidableEq, Repr

def tagText (marker code : String) : String := "<%" ++ marker ++ code ++ "%>"

def Cause.message : Cause → String
  | .before token => "syntax error before: " ++ Text.quoted token
  | .character c => "unexpected character " ++ Text.quoted (String.singleton c)
  | .endOfCode => "unexpected end of expression"
  | .literal fault => fault.message
  | .unclosedTag => "missing token " ++ Text.quoted "%>"
  | .trailingComment marker code => "unexpected comment at the end of " ++ tagText marker code
  | .reserved marker code =>
    "reserved name " ++ Text.quoted reservedName ++ " in " ++ tagText marker code
  | .misplacedTag code => "unexpected token " ++ Text.quoted code
  | .misplacedMarker marker code =>
    "unexpected token " ++ Text.quoted marker ++ " on " ++ tagText marker code
  | .unclosedBlock => "unexpected end of string, expected a closing 'end' tag"
  | .unsupportedMarker marker =>
    "unsupported EEx syntax <%" ++ marker ++ " %> "
      ++ "(the syntax is valid but not supported by the current EEx engine)"
  | .rejectedByEngine => "rejected by engine"
  | .other text => text

structure ScanFault where
  line : Int
  cause : Cause
deriving DecidableEq, Repr

def ScanFault.message (fault : ScanFault) : String :=
  toString fault.line ++ ": " ++ fault.cause.message

inductive Scope
  | template
  | expression
deriving DecidableEq, Repr

structure SourceFault where
  scope : Scope
  cause : Cause
  file : Option String := none
  line : Option Int := none
deriving DecidableEq, Repr

def unnamedFile : String := "nofile"

def SourceFault.message (fault : SourceFault) : String :=
  let file := match fault.file with
    | some name => if name.isEmpty then unnamedFile else name
    | none => unnamedFile
  match fault.line with
  | some line => file ++ ":" ++ toString line ++ ": " ++ fault.cause.message
  | none => file ++ ": " ++ fault.cause.message

def SourceFault.locate (fault : SourceFault) (file : String) (line : Int) : SourceFault :=
  match fault.file with
  | some _ => fault
  | none => { fault with file := some file, line := some (fault.line.getD line) }

inductive Fault
  | source (fault : SourceFault)
  | noSection (key : Int)
  | notABuffer
deriving DecidableEq, Repr

end EmbeddedTemplate
