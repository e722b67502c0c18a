import EmbeddedTemplate.Code.Operator
import EmbeddedTemplate.Fault
import EmbeddedTemplate.Number.Decimal
import EmbeddedTemplate.Text.Quoted
import EmbeddedTemplate.Tree.Basic

/-!
Writing a tree as code. Operands get parentheses where their operator binds more loosely than their
place demands; blocks take several lines and indent their sections.
-/

namespace EmbeddedTemplate.Code

inductive Unprintable
  | sealedItems
  | tooManyDigits
  | clause
  /-- Patterns, or the parts of a clause, that are no list. -/
  | notAList
  | notAName
deriving DecidableEq, Repr

inductive Place
  | body
  /-- An operand that has to bind at least as tightly as the tier. -/
  | operand (tier : Nat)
deriving DecidableEq, Repr

namespace Printer

def isEntry : Tree → Bool
  | .pair (.atom _) _ => true
  | _ => false

def isKeywords (items : List Tree) : Bool := !items.isEmpty && items.all isEntry

def isClause : Tree → Bool
  | .ref (.str name) _ => name = "->"
  | .call (.str name) _ _ => name = "->"
  | _ => false

def isClauses (items : List Tree) : Bool := !items.isEmpty && items.all isClause

def isSections : Tree → Bool
  | .list (.pair (.atom "do") body :: items) => isKeywords (.pair (.atom "do") body :: items)
  | _ => false

def isAccess : (owner name : Tree) → Bool
  | .call (.str path) _ [.atom part], .atom name =>
    path = "__aliases__" && part = "Access" && name = "get"
  | _, _ => false

def commas (texts : List String) : String := ", ".intercalate texts

def indent (text : String) : String :=
  String.ofList <|
    ' ' :: ' ' :: text.toList.flatMap fun c => if c = '\n' then ['\n', ' ', ' '] else [c]

def Place.tier : Place → Nat
  | .body => 0
  | .operand k => k

def fit (place : Place) (tier : Nat) (text : String) : String :=
  if tier < Place.tier place then "(" ++ text ++ ")" else text

/-- The tiers that the operands of an operator need: on one side its own tier may stand again. -/
def operandTiers (tier : Nat) : Nat × Nat :=
  match assoc tier with
  | .right => (tier + 1, tier)
  | _ => (tier, tier + 1)

def nameOf : Tree → Except Unprintable String
  | .atom name => .ok name
  | _ => .error .notAName

def intText (n : Int) : Except Unprintable String :=
  if maxDigits < Binary64.digitCount n.natAbs then .error .tooManyDigits else .ok (toString n)

mutual

def print (place : Place) : Tree → Except Unprintable String
  | .nil => return "nil"
  | .bool b => return if b then "true" else "false"
  | .int n => intText n
  | .float x => return x.text
  | .str s => return Text.literal s
  | .atom name => return ":" ++ name
  | .pair left right => do
    let left ← print (.operand 0) left
    return "\x7b" ++ left ++ ", " ++ (← print (.operand 0) right) ++ "\x7d"
  | .list items =>
    if place = .body && isClauses items then
      return "\n".intercalate (← clauses items)
    else return "[" ++ commas (← entries (isKeywords items) items) ++ "]"
  | .sealed _ => throw .sealedItems
  | .ref (.str name) _ => return name
  | .ref (.call (.str ".") _ [owner, name]) note => do
    let owner ← print (.operand tightTier) owner
    let name ← nameOf name
    return owner ++ "." ++ name ++ if note.noParens = some true then "" else "()"
  | .ref target _ =>
    if target.isCall then return (← print (.operand tightTier) target) ++ "()"
    else throw .notAName
  | .call (.str name) _ args => do
    if name = "__block__" then
      let texts ← entries false args
      if place = .body && !args.isEmpty then return "\n".intercalate texts
      return "(" ++ "; ".intercalate texts ++ ")"
    if name = "__aliases__" then return ".".intercalate (← args.mapM nameOf)
    if name = "\x7b\x7d" then
      return "\x7b" ++ commas (← entries (isKeywords args) args) ++ "\x7d"
    if name = "->" then return (← clause args)
    if args.length = 2 then
      if let some tier := binaryTier? name then
        let (leftTier, rightTier) := operandTiers tier
        let left ← operand leftTier 0 args
        let right ← operand rightTier 1 args
        return fit place tier (left ++ " " ++ name ++ " " ++ right)
    if args.length = 1 then
      if name = "@" then return "@" ++ (← operand tightTier 0 args)
      if isUnaryName name then
        let gap := if name = "not" then " " else ""
        return fit place unaryTier (name ++ gap ++ (← operand unaryTier 0 args))
    if args.getLast?.any isSections then
      let words ← arguments 1 args
      let head := if words.isEmpty then name else name ++ " " ++ commas words
      return "\n".intercalate ((← lastSections head args) ++ ["end"])
    return name ++ "(" ++ commas (← arguments 0 args) ++ ")"
  | .call (.call (.str ".") _ [owner, name]) note args => do
    if isAccess owner name && args.length = 2 then
      let container ← operand tightTier 0 args
      return container ++ "[" ++ (← operand 0 1 args) ++ "]"
    let owner ← print (.operand tightTier) owner
    let name ← nameOf name
    if note.noParens = some true then return owner ++ "." ++ name
    return owner ++ "." ++ name ++ "(" ++ commas (← arguments 0 args) ++ ")"
  | .call target _ args => do
    if target.isCall then
      let target ← print (.operand tightTier) target
      return target ++ "(" ++ commas (← arguments 0 args) ++ ")"
    throw .notAName

def operand (tier : Nat) : Nat → List Tree → Except Unprintable String
  | _, [] => throw .notAList
  | 0, t :: _ => print (.operand tier) t
  | i + 1, _ :: ts => operand tier i ts

def entries (short : Bool) : List Tree → Except Unprintable (List String)
  | [] => return []
  | t :: ts => do
    let text ← match short, t with
      | true, .pair (.atom key) value => do
        pure (key ++ ": " ++ (← print (.operand 0) value))
      | _, t => print (.operand 0) t
    return text :: (← entries short ts)

/-- The arguments of a call but for the last `omitted`; at the end, keywords need no brackets. -/
def arguments (omitted : Nat) : List Tree → Except Unprintable (List String)
  | [] => return []
  | t :: ts =>
    if ts.length < omitted then return []
    else do
      let text ← match t with
        | .list items => do
          let texts := commas (← entries (isKeywords items) items)
          pure (if isKeywords items && ts.length = omitted then texts else "[" ++ texts ++ "]")
        | t => print (.operand 0) t
      return text :: (← arguments omitted ts)

def clause : List Tree → Except Unprintable String
  | [.list patterns, body] => do
    let head := commas (← entries false patterns) ++ " ->"
    match body with
    | .nil => return head
    | body => return head ++ "\n" ++ indent (← print .body body)
  | [_, _] => throw .notAList
  | _ => throw .clause

def clauses : List Tree → Except Unprintable (List String)
  | [] => return []
  | .call _ _ args :: ts => do
    let text ← clause args
    return text :: (← clauses ts)
  | _ => throw .notAList

def sections (head : String) : List Tree → Except Unprintable (List String)
  | [] => return []
  | .pair (.atom label) body :: ts => do
    let first := if label = "do" then head ++ " do" else label
    let lines ← match body with
      | .nil => pure [first]
      | body => do pure [first, indent (← print .body body)]
    return lines ++ (← sections head ts)
  | _ => throw .notAList

def lastSections (head : String) : List Tree → Except Unprintable (List String)
  | [] => throw .notAList
  | t :: ts =>
    match t, ts with
    | .list items, [] => sections head items
    | _, ts => lastSections head ts

end

end Printer

def toSource (t : Tree) : Except Unprintable String := Printer.print .body t

end EmbeddedTemplate.Code
