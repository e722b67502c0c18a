import EmbeddedTemplate.Code.Expression

namespace EmbeddedTemplate.Template

structure Tag where
  kind : Code.TagKind
  line : Int
  marker : String
  code : String
deriving DecidableEq, Repr

/-- A middle tag that may continue a block: it has no marker. -/
def Tag.continues (t : Tag) : Bool := t.kind = .middle && t.marker.isEmpty

inductive Token
  | text (line : Int) (content : String)
  | tag (t : Tag)
deriving DecidableEq, Repr

end EmbeddedTemplate.Template
