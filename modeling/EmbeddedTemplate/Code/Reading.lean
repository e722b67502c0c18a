import EmbeddedTemplate.Code.Literal
import EmbeddedTemplate.Code.Phrase

/-!
The tree that a phrase stands for. Every call is annotated with the line of its first token; where a
phrase has parentheses around it, what is inside keeps its own line.
-/

namespace EmbeddedTemplate.Code.Phrase

/-- The arguments of a call: entries with a key come last, together in one list. -/
def gatherKeywords (phrases : List Phrase) (trees : List Tree) : List Tree :=
  let both := phrases.zip trees
  let positional := (both.filter fun e => !e.1.isKeyword).map (·.2)
  let keywords := (both.filter fun e => e.1.isKeyword).map (·.2)
  if keywords.isEmpty then positional else positional ++ [.list keywords]

def keyName (t : Token) : String := String.ofList t.text.toList.dropLast

variable [CharacterNames]

mutual

def toTree (p : Phrase) : Except LiteralFault Tree :=
  let note : Annotation := { line := some p.line }
  match p with
  | .literal t => Literal.value t
  | .name t => return .var t.text note
  | .modulePath t => return .moduleName (t.text.splitOn ".") note
  | .assign _ t => return .named "@" [.var t.text note] note
  | .call t args => return .named t.text (gatherKeywords args (← toTrees args)) note
  | .block t args parts => do
    let args := gatherKeywords args (← toTrees args)
    return .named t.text (args ++ [.list (← toTrees parts)]) note
  | .parens _ inner => inner.toTree
  | .list _ items => return .list (← toTrees items)
  | .tuple _ items => do
    match ← toTrees items with
    | [left, right] => return .pair left right
    | items => return .named "\x7b\x7d" items note
  | .unary op operand => return .named op.text [← operand.toTree] note
  | .binary left op right => do
    let left ← left.toTree
    return .named op.text [left, ← right.toTree] note
  | .remoteCall target t args => do
    let target ← target.toTree
    return .remote target t.text (gatherKeywords args (← toTrees args)) note
  | .field target t => do
    let dot : Tree := .named "." [← target.toTree, .atom t.text] note
    return .call dot { note with noParens := some true } []
  | .access target key => do
    let target ← target.toTree
    return .remote (.moduleName ["Access"] note) "get" [target, ← key.toTree] note
  | .keyword key value => return .pair (.atom (keyName key)) (← value.toTree)
  | .statements phrases => do
    match ← toTrees phrases with
    | [] => return .nil
    | [one] => return one
    | many => return .named "__block__" many note
  | .clauses phrases => return .list (← toTrees phrases)
  | .clause patterns body => do
    let patterns ← toTrees patterns
    return .named "->" [.list patterns, ← body.toTree] note
  | .part label body => return .pair (.atom label.text) (← body.toTree)

def toTrees : List Phrase → Except LiteralFault (List Tree)
  | [] => return []
  | p :: ps => do
    let t ← p.toTree
    return t :: (← toTrees ps)

end

end EmbeddedTemplate.Code.Phrase
