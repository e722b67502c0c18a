import EmbeddedTemplate.Number.Decimal
import EmbeddedTemplate.Text.Blank
import EmbeddedTemplate.Tree.Basic

namespace EmbeddedTemplate.Template

inductive Setting
  | null
  | bool (b : Bool)
  | int (n : Int)
  | float (x : Binary64)
  | text (s : String)
  | list (items : List Setting)
  | table (entries : List (String × Setting))
deriving Repr, Inhabited

mutual

def Setting.toTree : Setting → Tree
  | .null => .nil
  | .bool b => .bool b
  | .int n => .int n
  | .float x => .float x
  | .text s => .str s
  | .list items => .list (Setting.toTrees items)
  | .table entries => .list (Setting.toPairs entries)

def Setting.toTrees : List Setting → List Tree
  | [] => []
  | s :: ss => s.toTree :: Setting.toTrees ss

def Setting.toPairs : List (String × Setting) → List Tree
  | [] => []
  | (key, s) :: entries => .pair (.str key) s.toTree :: Setting.toPairs entries

end

inductive EngineName
  | smart
  | concat
  | recording
  | indenting
  | strict
deriving DecidableEq, Repr

structure Options where
  file : String := "nofile"
  line : Int := 1
  trim : Bool := false
  engine : EngineName := .smart
  extra : List (String × Setting) := []
deriving Repr, Inhabited

inductive Field
  | file
  | line
  | trim
  | engine
  | parser
deriving DecidableEq, Repr

namespace Field

def all : List Field := [.file, .line, .trim, .engine, .parser]

def name : Field → String
  | .file => "file"
  | .line => "line"
  | .trim => "trim"
  | .engine => "engine"
  | .parser => "parser"

end Field

inductive Problem
  | notText
  | notInteger
  | notFinite
  | fractional
  | unreadableInteger
  | negative
  | notBoolean
  | unreadableBoolean
  | notAnInstance
deriving DecidableEq, Repr

namespace Setting

def toText : Setting → Except Problem String
  | .text s => .ok s
  | _ => .error .notText

/-- Digits with single underscores between them. -/
def readDigits : List Char → Option Nat
  | [] => none
  | cs =>
    let grouped := cs.head?.any Char.isDigit && cs.getLast?.any Char.isDigit
      && cs.all (fun c => c.isDigit || c = '_')
      && (cs.zip (cs.drop 1)).all fun pair => pair ≠ ('_', '_')
    if grouped then some (Binary64.natOfDigits (cs.filter Char.isDigit)) else none

/-- A whole number between blanks: a sign, digits, and possibly a fraction of zeros. -/
def readInteger (s : String) : Option Int :=
  let (negative, cs) := Binary64.splitSign (Text.stripWith Text.isSpace s.toList)
  let whole := cs.takeWhile (· ≠ '.')
  let isWhole := match cs.dropWhile (· ≠ '.') with
    | [] => true
    | _ :: fraction => !fraction.isEmpty && fraction.all (· = '0')
  if isWhole then
    (readDigits whole).map fun n => if negative then -(n : Int) else n
  else none

def toInteger : Setting → Except Problem Int
  | .bool b => .ok (if b then 1 else 0)
  | .int n => .ok n
  | .float x =>
    match x.toInt?, x with
    | some n, _ => .ok n
    | none, .finite _ _ _ => .error .fractional
    | none, _ => .error .notFinite
  | .text s => (readInteger s).elim (.error .unreadableInteger) .ok
  | _ => .error .notInteger

def toLine (s : Setting) : Except Problem Int := do
  let n ← s.toInteger
  if n < 0 then .error .negative else return n

def readBoolean (s : String) : Option Bool :=
  let word := s.map Char.toLower
  if ["1", "true", "t", "yes", "y", "on"].contains word then some true
  else if ["0", "false", "f", "no", "n", "off"].contains word then some false
  else none

def toBoolean : Setting → Except Problem Bool
  | .bool b => .ok b
  | .int n => if n = 0 then .ok false else if n = 1 then .ok true else .error .unreadableBoolean
  | .float x =>
    match x.toInt? with
    | some 0 => .ok false
    | some 1 => .ok true
    | _ => .error .notBoolean
  | .text s => (readBoolean s).elim (.error .unreadableBoolean) .ok
  | _ => .error .notBoolean

def toEngine : Setting → Except Problem EngineName
  | .text "smart" => .ok .smart
  | .text "default" => .ok .concat
  | .text "record" => .ok .recording
  | .text "indent" => .ok .indenting
  | .text "strict" => .ok .strict
  | _ => .error .notAnInstance

/-- No setting is a parser: the parser of the library is the only one. -/
def toParser (_ : Setting) : Except Problem Unit := .error .notAnInstance

end Setting

namespace Options

structure FieldFault where
  field : Field
  problem : Problem
deriving DecidableEq, Repr

def read (settings : List (String × Setting)) (field : Field) (value : Setting → Except Problem α)
    (default : α) : Except FieldFault α :=
  match settings.find? fun s => s.1 = field.name with
  | some (_, setting) => (value setting).mapError (⟨field, ·⟩)
  | none => .ok default

def faults (field : Except FieldFault α) : List FieldFault :=
  match field with
  | .ok _ => []
  | .error fault => [fault]

/-- The options that settings describe, or the faults of all fields in their order. -/
def ofSettings (settings : List (String × Setting)) : Except (List FieldFault) Options :=
  let file := read settings .file Setting.toText "nofile"
  let line := read settings .line Setting.toLine 1
  let trim := read settings .trim Setting.toBoolean false
  let engine := read settings .engine Setting.toEngine .smart
  let parser := read settings .parser Setting.toParser ()
  match file, line, trim, engine, parser with
  | .ok file, .ok line, .ok trim, .ok engine, .ok _ =>
    let extra := settings.filter fun s => !(Field.all.map Field.name).contains s.1
    .ok { file, line, trim, engine, extra }
  | file, line, trim, engine, parser =>
    .error (faults file ++ faults line ++ faults trim ++ faults engine ++ faults parser)

def extra? (options : Options) (name : String) : Option Setting :=
  (options.extra.find? fun s => s.1 = name).map (·.2)

end Options

end EmbeddedTemplate.Template
