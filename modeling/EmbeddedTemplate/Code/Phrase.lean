import EmbeddedTemplate.Code.Token

namespace EmbeddedTemplate.Code

inductive Phrase
  | literal (token : Token)
  | name (token : Token)
  | modulePath (token : Token)
  | assign (atSign name : Token)
  | call (name : Token) (args : List Phrase)
  /-- A name with arguments and sections between `do` and `end`. -/
  | block (name : Token) (args parts : List Phrase)
  | parens (opening : Token) (inner : Phrase)
  | list (opening : Token) (items : List Phrase)
  | tuple (opening : Token) (items : List Phrase)
  | unary (operator : Token) (operand : Phrase)
  | binary (left : Phrase) (operator : Token) (right : Phrase)
  | remoteCall (target : Phrase) (name : Token) (args : List Phrase)
  | field (target : Phrase) (name : Token)
  | access (target key : Phrase)
  | keyword (key : Token) (value : Phrase)
  | statements (phrases : List Phrase)
  | clauses (phrases : List Phrase)
  | clause (patterns : List Phrase) (body : Phrase)
  /-- A section of a block after the word that opens it. -/
  | part (label : Token) (body : Phrase)
deriving Repr, Inhabited

namespace Phrase

def isKeyword : Phrase → Bool
  | .keyword _ _ => true
  | _ => false

def line : Phrase → Int
  | .literal t | .name t | .modulePath t | .assign t _ => t.line
  | .call t _ | .block t _ _ | .parens t _ | .list t _ | .tuple t _ | .unary t _ => t.line
  | .binary p _ _ | .remoteCall p _ _ | .field p _ | .access p _ => p.line
  | .keyword t _ | .part t _ => t.line
  | .statements [] | .clauses [] | .clause [] _ => 0
  | .statements (p :: _) | .clauses (p :: _) | .clause (p :: _) _ => p.line

end Phrase

end EmbeddedTemplate.Code
