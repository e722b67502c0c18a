import EmbeddedTemplate.Template.Piece

/-!
Trimming: a tag or comment that stands alone on its line takes the whole line with it, its
indentation and its line break included.
-/

namespace EmbeddedTemplate.Template.Piece

def isIndent (c : Char) : Bool := c = ' ' || c = '\t'

def isTail (c : Char) : Bool := isIndent c || c = '\r'

def blankAfter (blank : Bool) (cs : List Char) : Bool :=
  cs.foldl (fun blank c => c = '\n' || (blank && isIndent c)) blank

def endsLine : List Piece → Bool
  | [] => true
  | .text _ cs :: ps =>
    (cs.takeWhile (· ≠ '\n')).all isTail && (cs.contains '\n' || ps.isEmpty)
  | _ => false

def startsAlone (blank : Bool) : List Piece → Bool
  | .tag _ _ _ :: ps => blank && endsLine ps
  | _ => false

def dropLine (line : Int) (cs : List Char) : Int × List Char :=
  match cs.dropWhile (· ≠ '\n') with
  | [] => (line, [])
  | _ :: rest => (line + 1, rest)

def dropIndent (cs : List Char) : List Char := (cs.reverse.dropWhile isIndent).reverse

/--
Trims pieces, given whether the line is blank so far and whether the tag before stands alone on it.
-/
def trim (blank alone : Bool) : List Piece → List Piece
  | [] => []
  | .text line cs :: ps =>
    let after := blankAfter blank cs
    let (line, kept) := if alone then dropLine line cs else (line, cs)
    .text line (if startsAlone after ps then dropIndent kept else kept) :: trim after false ps
  | .quotation line cs :: ps => .quotation line cs :: trim false false ps
  | .tag line marker code :: ps =>
    .tag line marker code :: trim false (blank && endsLine ps) ps

end EmbeddedTemplate.Template.Piece
