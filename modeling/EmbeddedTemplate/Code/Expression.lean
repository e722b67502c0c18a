import EmbeddedTemplate.Code.Chart
import EmbeddedTemplate.Code.Lexer
import EmbeddedTemplate.Code.Reading

namespace EmbeddedTemplate.Code

structure CodeFault where
  cause : Cause
  line : Int
deriving DecidableEq, Repr

def lastLine (code : String) (line : Int) : Int := line + code.toList.count '\n'

/--
The fault in lexed code that is no program, where `left` tokens are left at the furthest place that
a program can reach.
-/
def faultAt (code : String) (line : Int) (lexed : Lexed) (left : Nat) : CodeFault :=
  let tokens := lexed.tokens
  match tokens[tokens.length - left]?, lexed.rejected with
  | some t, _ => ⟨.before t.text, t.line⟩
  | none, some (c, line) => ⟨.character c, line⟩
  | none, none => ⟨.endOfCode, lastLine code line⟩

def parse [CharacterNames] (code : String) (line : Int) : Except CodeFault Tree :=
  let lexed := Lexed.ofCode code line
  match Phrase.ofTokens lexed.tokens, lexed.rejected with
  | .ok phrase, none => phrase.toTree.mapError fun fault => ⟨.literal fault, line⟩
  | .ok _, some _ => .error (faultAt code line lexed 0)
  | .error left, _ => .error (faultAt code line lexed left)

inductive TagKind
  | plain
  | opening
  | middle
  | closing
deriving DecidableEq, Repr

def TagKind.ofTokens (tokens : List Token) : TagKind :=
  match tokens.head?, tokens.getLast? with
  | some first, some last =>
    let opens := last.terminal = .word .doWord
    let goesOn := last.terminal = .sign .arrow
    match first.terminal with
    | .word .endWord => if opens || goesOn then .middle else .closing
    | .word w =>
      if w.opensSection || goesOn then .middle else if opens then .opening else .plain
    | _ => if goesOn then .middle else if opens then .opening else .plain
  | _, _ => .plain

/-- The kind of tag that code makes; code that does not split into tokens is plain. -/
def classify (code : String) : TagKind := TagKind.ofTokens ((tokens? code).getD [])

def names (code : String) : List String :=
  (((tokens? code).getD []).filter fun t => t.terminal = .name).map (·.text)

def endsInComment (code : String) : Bool :=
  let lexed := Lexed.ofCode code 1
  let solid := lexed.lexemes.filter fun l => l.kind ≠ .blank
  lexed.rejected.isNone && solid.getLast?.any fun l => l.kind = .comment

end EmbeddedTemplate.Code
