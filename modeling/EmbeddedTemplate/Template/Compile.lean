import EmbeddedTemplate.Template.Engine
import EmbeddedTemplate.Template.Placeholder
import EmbeddedTemplate.Template.Tokenize
import EmbeddedTemplate.Text.Blank

/-!
Compiling a template: its tokens are handed to an engine in order. The code of a block is spread
over several tags. It is put together again with a placeholder in each section, so that every tag's
code stays on its line, and parsed when the block ends; then each placeholder is replaced by the
buffer of its section, and the whole is one expression for the buffer around the block.
-/

namespace EmbeddedTemplate.Template

inductive Remark
  | started (file : String) (tokens : Nat)
  | folded (blank : Bool) (code : String) (line : Int)
  | opened (line : Int) (code : String)
  | closed (line : Int) (sections : Nat)
deriving DecidableEq, Repr

def Remark.message : Remark → String
  | .started file tokens => "Compiling " ++ file ++ ": " ++ toString tokens ++ " tokens"
  | .folded blank code line =>
    "Folding " ++ (if blank then "blank text and " else "") ++ Text.quoted (Text.strip code)
      ++ " into block at line " ++ toString line
  | .opened line code =>
    "Opening block at line " ++ toString line ++ ": " ++ Text.quoted (Text.strip code)
  | .closed line sections =>
    "Closing block from line " ++ toString line ++ " with " ++ toString sections
      ++ " placeholders"

inductive Event
  | init (buffer : Tree)
  | text (content : String) (buffer : Tree)
  | expression (marker : String) (tree buffer : Tree)
  | body (artifact : Tree)
  | remark (r : Remark)
deriving Repr

structure Lookahead where
  source : String
  line : Int
  taken : Nat
deriving DecidableEq, Repr

/--
Puts a middle tag that follows an opening tag into the code of the block. Blank text between the two
goes there as well and never reaches the engine.
-/
def lookAhead (source : String) (line : Int) : List Token → Lookahead
  | .tag t :: _ => if t.continues then ⟨source ++ t.code, t.line, 1⟩ else ⟨source, line, 0⟩
  | .text _ blank :: .tag t :: _ =>
    if t.continues && blank.toList.all Text.isGap then ⟨source ++ blank ++ t.code, t.line, 2⟩
    else ⟨source, line, 0⟩
  | _ => ⟨source, line, 0⟩

def Lookahead.remark? (ahead : Lookahead) (line : Int) (tokens : List Token) : Option Remark :=
  match ahead.taken, tokens with
  | 1, .tag t :: _ => some (.folded false t.code line)
  | 2, .text _ _ :: .tag t :: _ => some (.folded true t.code line)
  | _, _ => none

structure OpenBlock where
  opening : Tag
  outer : Tree
  source : String
  line : Int
  sections : List Tree
deriving Repr

/-- Ends a section with the tag after it. Line breaks before its code keep it on its line. -/
def OpenBlock.extend (block : OpenBlock) (buffer : Tree) (tag : Tag) : OpenBlock :=
  let breaks := String.ofList (List.replicate (tag.line - block.line).toNat '\n')
  { block with
    source := block.source ++ placeholder block.sections.length ++ breaks ++ tag.code
    line := tag.line
    sections := block.sections ++ [buffer] }

def fault (file : String) (line : Int) (cause : Cause) : Fault :=
  .source { scope := .template, cause, file := some file, line := some line }

variable [CharacterNames]

def parseCode (file : String) (code : String) (line : Int) : Except Fault Tree :=
  (Code.parse code line).mapError fun fault => .source
    { scope := .expression, cause := fault.cause, file := some file, line := some fault.line }

/-- A fault of an engine is a fault at the tag, unless it names its own file. -/
def locateFault (file : String) (line : Int) : Fault → Fault
  | .source fault => .source (fault.locate file line)
  | other => other

section

variable {m : Type → Type} [Monad m] [MonadExceptOf Fault m]
variable (emit : Event → m Unit) (engine : Engine)

def addExpression (file : String) (tag : Tag) (buffer tree : Tree) : m Tree := do
  let buffer' ← ofExcept <|
    (engine.expression buffer tag.marker tree).mapError (locateFault file tag.line)
  emit (.expression tag.marker tree buffer')
  return buffer'

structure State where
  /-- The number of tokens to come whose code is in a block already. -/
  taken : Nat := 0
  /-- The place of the first token that is in no block and in no buffer yet. -/
  position : Nat := 0
  buffer : Tree
  blocks : List OpenBlock := []
deriving Repr

def step (file : String) (init : Tree) (s : State) (token : Token) (later : List Token) :
    m State :=
  match s.taken, token with
  | taken + 1, _ => return { s with taken }
  | 0, .text _ content => do
    let buffer ← ofExcept (engine.text s.buffer content)
    emit (.text content buffer)
    return { s with position := s.position + 1, buffer }
  | 0, .tag tag => do
    if (Code.names tag.code).contains reservedName then
      throw (fault file tag.line (.reserved tag.marker tag.code))
    match tag.kind, s.blocks with
    | .plain, _ => do
      let tree ← ofExcept (parseCode file tag.code tag.line)
      let buffer ← addExpression emit engine file tag s.buffer tree
      return { s with position := s.position + 1, buffer }
    | .opening, blocks => do
      let ahead := lookAhead tag.code tag.line later
      if let some remark := ahead.remark? tag.line later then emit (.remark remark)
      emit (.remark (.opened tag.line tag.code))
      let block : OpenBlock := ⟨tag, s.buffer, ahead.source, ahead.line, []⟩
      return ⟨ahead.taken, s.position + 1 + ahead.taken, init, block :: blocks⟩
    | .middle, blocks => do
      if !tag.marker.isEmpty then
        throw (fault file tag.line (.misplacedMarker tag.marker tag.code))
      match blocks with
      | [] => throw (fault file tag.line (.misplacedTag tag.code))
      | block :: blocks =>
        return ⟨0, s.position + 1, init, block.extend s.buffer tag :: blocks⟩
    | .closing, [] => throw (fault file tag.line (.misplacedTag tag.code))
    | .closing, block :: blocks => do
      if !tag.marker.isEmpty then
        throw (fault file tag.line (.misplacedMarker tag.marker tag.code))
      let block := block.extend s.buffer tag
      let tree ← ofExcept (parseCode file block.source block.opening.line)
      emit (.remark (.closed block.opening.line block.sections.length))
      let tree ← ofExcept (substitute block.sections tree)
      let buffer ← addExpression emit engine file block.opening block.outer tree
      return ⟨0, s.position + 1, buffer, blocks⟩

theorem step_skip {file : String} {init : Tree} {taken position : Nat} {buffer : Tree}
    {blocks : List OpenBlock} {token : Token} {later : List Token} :
    step emit engine file init ⟨taken + 1, position, buffer, blocks⟩ token later =
      pure ⟨taken, position, buffer, blocks⟩ := by
  simp only [step]

def finish (file : String) (s : State) : m (Tree × Nat) :=
  match s.blocks with
  | block :: _ => throw (fault file block.line .unclosedBlock)
  | [] => do
    let artifact ← ofExcept (engine.body s.buffer)
    emit (.body artifact)
    return (artifact, s.position)

def generate (file : String) (init : Tree) : State → List Token → m (Tree × Nat)
  | s, [] => finish emit engine file s
  | s, token :: later => do
    generate file init (← step emit engine file init s token later) later

def compileTokensWith (options : Options) (tokens : List Token) : m Tree := do
  let init := engine.init options
  emit (.init init)
  let (artifact, _) ← generate emit engine options.file init { buffer := init } tokens
  return artifact

def compileWith (options : Options) (source : String) : m Tree := do
  match tokenize source options.line options.trim with
  | .error e => throw (fault options.file e.line e.cause)
  | .ok tokens => do
    emit (.remark (.started options.file tokens.length))
    compileTokensWith emit engine options tokens

end

def compileTokens (engine : Engine) (options : Options) (tokens : List Token) :
    Except Fault Tree :=
  compileTokensWith (fun _ => pure ()) engine options tokens

def compile (engine : Engine) (options : Options) (source : String) : Except Fault Tree :=
  compileWith (fun _ => pure ()) engine options source

/-- Compiles a template and gives all events up to the end or the fault. -/
def trace (engine : Engine) (options : Options) (source : String) :
    Except Fault Tree × List Event :=
  let observe (event : Event) : ExceptT Fault (StateM (List Event)) Unit :=
    modify fun events => event :: events
  let (result, events) := (compileWith observe engine options source).run.run []
  (result, events.reverse)

end EmbeddedTemplate.Template
