import EmbeddedTemplate.Template.Token
import EmbeddedTemplate.Template.Trim

/-!
The tokens of a template. Texts and quotations that no tag separates are one token, and comments
leave nothing behind.
-/

namespace EmbeddedTemplate.Template

structure Pending where
  line : Int
  chars : List Char
deriving DecidableEq, Repr

namespace Pending

def empty : Pending := ⟨0, []⟩

def add (p : Pending) (line : Int) (cs : List Char) : Pending :=
  if p.chars.isEmpty then ⟨line, cs⟩ else { p with chars := p.chars ++ cs }

def toTokens (p : Pending) : List Token :=
  if p.chars.isEmpty then [] else [.text p.line (String.ofList p.chars)]

end Pending

/--
The token of a tag. The code of a block is continued by that of later tags, so it must not end in a
comment.
-/
def Tag.ofCode (line : Int) (marker code : String) : Except ScanFault Tag :=
  let kind := Code.classify code
  if (kind = .opening || kind = .middle) && Code.endsInComment code then
    .error ⟨line, .trailingComment marker code⟩
  else .ok ⟨kind, line, marker, code⟩

def Token.ofPieces (pending : Pending) : List Piece → Except ScanFault (List Token)
  | [] => .ok pending.toTokens
  | .text line cs :: ps => ofPieces (pending.add line cs) ps
  | .quotation line cs :: ps => ofPieces (pending.add line ('<' :: '%' :: cs ++ ['%', '>'])) ps
  | .tag line marker code :: ps =>
    if marker = some '#' then ofPieces pending ps
    else do
      let tag ← Tag.ofCode line (marker.elim "" String.singleton) (String.ofList code)
      return pending.toTokens ++ .tag tag :: (← ofPieces .empty ps)

def tokenize (source : String) (line : Int) (trim : Bool) : Except ScanFault (List Token) := do
  let split := Pieces.ofSource source line
  let pieces := if trim then Piece.trim true false split.pieces else split.pieces
  let tokens ← Token.ofPieces .empty pieces
  match split.unclosed with
  | some line => .error ⟨line, .unclosedTag⟩
  | none => return tokens

end EmbeddedTemplate.Template
