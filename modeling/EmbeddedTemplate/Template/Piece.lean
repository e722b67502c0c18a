import EmbeddedTemplate.Code.Lexer

/-!
The pieces that a template is written in: text, tags, comments, and quotations, which stand for a
tag as text. Within the code of a tag, `%%>` stands for `%>`.
-/

namespace EmbeddedTemplate.Template

inductive Piece
  | text (line : Int) (chars : List Char)
  | quotation (line : Int) (chars : List Char)
  | tag (line : Int) (marker : Option Char) (code : List Char)
deriving DecidableEq, Repr

/-- The pieces of a template, and the line of the tag that is never closed, if there is one. -/
structure Pieces where
  pieces : List Piece
  unclosed : Option Int
deriving DecidableEq, Repr

namespace Piece

def isMarker (c : Char) : Bool := c = '=' || c = '/' || c = '|' || c = '#'

/-- The code of a tag up to its end, and how many characters it takes with the end. -/
def readCode : List Char → Option (List Char × Nat)
  | '%' :: '%' :: '>' :: cs => (readCode cs).map fun (code, n) => ('%' :: '>' :: code, n + 3)
  | '%' :: '>' :: _ => some ([], 2)
  | c :: cs => (readCode cs).map fun (code, n) => (c :: code, n + 1)
  | [] => none

def readQuotation : List Char → Option (List Char)
  | '%' :: '>' :: _ => some []
  | c :: cs => (readQuotation cs).map (c :: ·)
  | [] => none

def read (line : Int) : List Char → Option (Piece × Nat)
  | '%' :: '>' :: _ => some (.quotation line [], 2)
  | '%' :: cs => (readQuotation cs).map fun q => (.quotation line q, q.length + 3)
  | c :: cs =>
    if isMarker c then (readCode cs).map fun (code, n) => (.tag line (some c) code, n + 1)
    else (readCode (c :: cs)).map fun (code, n) => (.tag line none code, n)
  | [] => none

def consText (line : Int) (c : Char) : List Piece → List Piece
  | .text _ cs :: ps => .text line (c :: cs) :: ps
  | ps => .text line [c] :: ps

/-- Splits a template of which the first `taken` characters belong to a piece already read. -/
def scan : (taken : Nat) → (line : Int) → List Char → Pieces
  | _, _, [] => ⟨[], none⟩
  | taken + 1, line, c :: cs => scan taken (Code.Lexed.lineAfter line c) cs
  | 0, line, '<' :: '%' :: cs =>
    match read line cs with
    | none => ⟨[], some line⟩
    | some (piece, n) =>
      let rest := scan n line cs
      ⟨piece :: rest.pieces, rest.unclosed⟩
  | 0, line, c :: cs =>
    let rest := scan 0 (Code.Lexed.lineAfter line c) cs
    ⟨consText line c rest.pieces, rest.unclosed⟩

end Piece

def Pieces.ofSource (source : String) (line : Int) : Pieces := Piece.scan 0 line source.toList

end EmbeddedTemplate.Template
