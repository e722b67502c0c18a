import EmbeddedTemplate.Fault
import EmbeddedTemplate.Template.Options
import EmbeddedTemplate.Tree.Walk

/-!
Engines decide what a template becomes. An engine folds texts and expressions, in the order of the
template, into a buffer; buffers are trees, since those of sections become part of the expressions
around them.
-/

namespace EmbeddedTemplate.Template

structure Engine where
  init : Options → Tree
  text : (buffer : Tree) → (content : String) → Except Fault Tree
  expression : (buffer : Tree) → (marker : String) → Tree → Except Fault Tree
  /-- What a template becomes when all of it is in the buffer. -/
  body : (buffer : Tree) → Except Fault Tree

namespace Engine

def textOf (t : Tree) : Tree := .remote (.moduleName ["String", "Chars"]) "to_string" [t]

def concatenation (left right : Tree) : Tree := .named "<>" [left, right]

def evaluation (buffer t : Tree) : Tree :=
  .named "__block__" [.named "=" [.var "tmp", buffer], t, .var "tmp"]

def concat : Engine where
  init _ := .str ""
  text buffer content := .ok (concatenation buffer (.str content))
  expression buffer marker t :=
    if marker = "=" then .ok (concatenation buffer (textOf t))
    else if marker.isEmpty then .ok (evaluation buffer t)
    else .error (.source
      { scope := .template, cause := .unsupportedMarker marker, line := t.line? })
  body buffer := .ok buffer

def fetchAssign (name : String) (note : Annotation) : Tree :=
  .remote (.moduleName ["EEx", "Engine"] note) "fetch_assign!"
    [.var "assigns" note, .atom name] note

/-- The look-up that replaces the form `@name`, and any other tree as it is. -/
def rewriteAssign : Tree → Tree
  | .call (.str op) note [.ref (.str name) inner] =>
    if op = "@" then fetchAssign name note else .call (.str op) note [.ref (.str name) inner]
  | t => t

mutual

def expandAssigns : Tree → Tree
  | .call (.str op) note [.ref (.str name) inner] =>
    if op = "@" then fetchAssign name note else .call (.str op) note [.ref (.str name) inner]
  | .call target note args => .call (expandAssigns target) note (expandAllAssigns args)
  | .ref target note => .ref (expandAssigns target) note
  | .pair left right => .pair (expandAssigns left) (expandAssigns right)
  | .list items => .list (expandAllAssigns items)
  | leaf => leaf

def expandAllAssigns : List Tree → List Tree
  | [] => []
  | t :: ts => expandAssigns t :: expandAllAssigns ts

end

def smart : Engine :=
  { concat with
    expression := fun buffer marker t => concat.expression buffer marker (expandAssigns t) }

def record (buffer : Tree) (entry : List Tree) : Except Fault Tree :=
  match buffer with
  | .sealed entries => .ok (.sealed (entries ++ [.sealed entry]))
  | _ => .error .notABuffer

def recording : Engine where
  init _ := .sealed []
  text buffer content := record buffer [.str "text", .str content]
  expression buffer marker t := record buffer [.str "expr", .str marker, t]
  body buffer :=
    match buffer with
    | .sealed entries => .ok (.list entries)
    | .list entries => .ok (.list entries)
    | _ => .error .notABuffer

def indenting : Engine :=
  { recording with
    init := fun options => .sealed [.sealed
      [.str "options", .str options.file, .int options.line, .bool options.trim,
        ((options.extra? "indent").getD .null).toTree]] }

/-- Concatenation that refuses two markers, one of them in the name of a file of its own. -/
def strict : Engine :=
  { concat with
    expression := fun buffer marker t =>
      if marker = "/" then .error (.source
        { scope := .expression, cause := .rejectedByEngine, line := t.line? })
      else if marker = "|" then .error (.source
        { scope := .template, cause := .rejectedByEngine, file := some "engine.eex" })
      else concat.expression buffer marker t }

def ofName : EngineName → Engine
  | .smart => smart
  | .concat => concat
  | .recording => recording
  | .indenting => indenting
  | .strict => strict

end Engine

end EmbeddedTemplate.Template
