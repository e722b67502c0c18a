import EmbeddedTemplate.Code.Operator
import EmbeddedTemplate.Code.Parses
import EmbeddedTemplate.Code.Phrase

/-!
Reading tokens as a program. A chart has one row for each place in a run of tokens; a row holds the
readings of every kind of phrase that start at its place, and depends on the rows of later places
only. So a chart is built from the end of the run to its start.

Where more than one reading covers a stretch, the first name that can take a block takes it, and
operands, arguments and bodies are as long as they can be. Only the first item of a list leaves what
it can to the items after it.
-/

namespace EmbeddedTemplate.Code

inductive Chain
  | last (operand : Phrase)
  | link (operand : Phrase) (operator : Token) (rest : Chain)
deriving Repr

namespace Chain

def toRight : Chain → Phrase
  | .last p => p
  | .link p op rest => .binary p op rest.toRight

def toLeftFrom (left : Phrase) (operator : Token) : Chain → Phrase
  | .last p => .binary left operator p
  | .link p op rest => toLeftFrom (.binary left operator p) op rest

def toLeft : Chain → Phrase
  | .last p => p
  | .link p op rest => toLeftFrom p op rest

def toPhrase (tier : Nat) : Chain → Phrase :=
  match assoc tier with
  | .left => toLeft
  | .right | .single => toRight

end Chain

inductive Trailer
  | call (name : Token) (args : List Phrase)
  | field (name : Token)
  | access (key : Phrase)
deriving Repr

def Trailer.attach (target : Phrase) : Trailer → Phrase
  | .call name args => .remoteCall target name args
  | .field name => .field target name
  | .access key => .access target key

structure Row where
  head : Option Token
  tiers : List (Parses Phrase)
  chains : List (Parses Chain)
  trailers : Parses (List Trailer)
  entries : Parses (List Phrase)
  moreEntries : Parses (List Phrase)
  statements : Parses (List Phrase)
  moreStatements : Parses (List Phrase)
  morePatterns : Parses (List Phrase)
  clauses : Parses (List Phrase)
  clauseBody : Parses (Phrase × List Phrase)
  sections : Parses (Phrase × List Phrase)
  program : Parses Phrase

instance : Inhabited Row :=
  ⟨⟨none, [], [], default, default, default, default, default, default, default, default, default,
    default⟩⟩

abbrev Chart := Array Row

namespace Chart

variable (chart : Chart)

def row (left : Nat) : Row := chart[left]?.getD default

def tier (k left : Nat) : Parses Phrase := ((chart.row left).tiers[k]?).getD (.fail left)

def chain (k left : Nat) : Parses Chain := ((chart.row left).chains[k]?).getD (.fail left)

def expression (left : Nat) : Parses Phrase := chart.tier 0 left

def tokenIf (test : Terminal → Bool) (head : Option Token) (left : Nat) : Parses Token :=
  match head with
  | some t => if test t.terminal then .done (left - 1) t else .fail left
  | none => .fail left

def token (test : Terminal → Bool) (left : Nat) : Parses Token :=
  tokenIf test (chart.row left).head left

def sign (s : Sign) (left : Nat) : Parses Token := chart.token (· = .sign s) left

def word (w : Word) (left : Nat) : Parses Token := chart.token (· = .word w) left

def enclosed (closing : Sign) (left : Nat) : Parses (List Phrase) :=
  ((chart.row left).entries.andThen fun left entries =>
      (chart.sign closing left).map fun _ => entries)
    |>.orElse ((chart.sign closing left).map fun _ => [])

def doBlock (left : Nat) : Parses (List Phrase) :=
  (chart.word .doWord left).andThen fun left opening =>
    (chart.row left).sections.map fun (body, more) => .part opening body :: more

def arguments (left : Nat) : Parses (List Phrase) :=
  (chart.sign .leftParen left).andThen fun left _ => chart.enclosed .rightParen left

def named (left : Nat) (name : Token) : Parses Phrase :=
  ((chart.row left).entries.andThen fun left args => (chart.doBlock left).map (.block name args))
    |>.orElse ((chart.doBlock left).map (.block name []))
    |>.orElse ((chart.arguments left).map (.call name))
    |>.orElse (.done left (.name name))

def primary (left : Nat) (head : Token) : Parses Phrase :=
  match head.terminal with
  | .name => chart.named left head
  | .modulePath => .done left (.modulePath head)
  | .sign .atSign => (chart.token (· = .name) left).map (.assign head)
  | .sign .leftParen =>
    (chart.expression left).andThen fun left inner =>
      (chart.sign .rightParen left).map fun _ => .parens head inner
  | .sign .leftBracket => (chart.enclosed .rightBracket left).map (.list head)
  | .sign .leftBrace => (chart.enclosed .rightBrace left).map (.tuple head)
  | t => if t.isLiteral then .done left (.literal head) else .fail (left + 1)

def trailers (left : Nat) (head : Option Token) : Parses (List Trailer) :=
  let more (left : Nat) (t : Trailer) := (chart.row left).trailers.map (t :: ·)
  let afterDot (left : Nat) (name : Token) :=
    ((chart.arguments left).andThen fun left args => more left (.call name args))
      |>.orElse (more left (.field name))
  ((tokenIf (· = .sign .dot) head left).andThen fun left _ =>
      (chart.token (· = .name) left).andThen afterDot)
    |>.orElse ((tokenIf (· = .sign .leftBracket) head left).andThen fun left _ =>
      (chart.expression left).andThen fun left key =>
        (chart.sign .rightBracket left).andThen fun left _ => more left (.access key))
    |>.orElse (.done left [])

def chainFrom (k : Nat) (tighter : Parses Phrase) : Parses Chain :=
  tighter.andThen fun left operand =>
    ((chart.token (·.tier? = some k) left).andThen fun left op =>
        match assoc k with
        | .single => (chart.tier (k + 1) left).map fun right => .link operand op (.last right)
        | _ => (chart.chain k left).map (.link operand op))
      |>.orElse (.done left (.last operand))

def ladder (unary : Parses Phrase) : (tiers : Nat) → List (Parses Chain) × List (Parses Phrase)
  | 0 => ([], [unary])
  | n + 1 =>
    let k := unaryTier - (n + 1)
    let (chains, tiers) := ladder unary n
    let chain := chart.chainFrom k (tiers.headD (.fail 0))
    (chain :: chains, chain.map (Chain.toPhrase k) :: tiers)

def isLabel : Terminal → Bool
  | .word w => w.opensSection
  | _ => false

/-- A block from the token at this place, which follows the body of one of its sections. -/
def finish (left : Nat) (head : Option Token) (body : Phrase) : Parses (Phrase × List Phrase) :=
  ((tokenIf (· = .word .endWord) head left).map fun _ => (body, []))
    |>.orElse ((tokenIf isLabel head left).andThen fun left label =>
      (chart.row left).sections.map fun (next, more) => (body, .part label next :: more))

def separated (left : Nat) (head : Option Token) (more : Row → Parses α) : Parses α :=
  (tokenIf (· = .sign .semicolon) head left).andThen fun left _ => more (chart.row left)

def several (item : Parses Phrase) (more : Row → Parses (List Phrase)) : Parses (List Phrase) :=
  item.andThen fun left x =>
    (chart.sign .comma left).andThen fun left _ => (more (chart.row left)).map (x :: ·)

/-- A list of items with commas between them: several are preferred to one. -/
def commaList (item : Parses Phrase) (more : Row → Parses (List Phrase)) : Parses (List Phrase) :=
  (chart.several item more).orElse (item.map fun x => [x])

/-- The items after a comma: one is preferred to several. -/
def afterComma (item : Parses Phrase) (more : Row → Parses (List Phrase)) : Parses (List Phrase) :=
  (item.map fun x => [x]).orElse (chart.several item more)

def operand (left : Nat) : (head : Option Token) → Parses Phrase
  | some t => (chart.primary (left - 1) t).andThen fun left p =>
      (chart.row left).trailers.map fun ts => ts.foldl Trailer.attach p
  | none => .fail left

def unary (left : Nat) (head : Option Token) : Parses Phrase :=
  ((tokenIf Terminal.isUnary head left).andThen fun left op =>
      (chart.tier unaryTier left).map (.unary op))
    |>.orElse (chart.operand left head)

def entry (left : Nat) (head : Option Token) (expression : Parses Phrase) : Parses Phrase :=
  expression.orElse <|
    (tokenIf (· = .key) head left).andThen fun left key =>
      (chart.expression left).map (.keyword key)

def statementsFrom (expression : Parses Phrase) : Parses (List Phrase) :=
  expression.andThen fun left s => (chart.row left).moreStatements.map (s :: ·)

def clausesFrom (patterns : Parses (List Phrase)) : Parses (List Phrase) :=
  patterns.andThen fun left ps =>
    (chart.sign .arrow left).andThen fun left _ =>
      (chart.row left).clauseBody.map fun (body, more) => .clause ps body :: more

def clauseBodyFrom (left : Nat) (head : Option Token) (statements clauses : Parses (List Phrase)) :
    Parses (Phrase × List Phrase) :=
  (chart.separated left head Row.clauseBody)
    |>.orElse (statements.andThen fun left body =>
      ((chart.row left).clauses.map fun more => (.statements body, more))
        |>.orElse (.done left (.statements body, [])))
    |>.orElse (clauses.map fun more => (.statements [], more))
    |>.orElse (.done left (.statements [], []))

def sectionsFrom (left : Nat) (head : Option Token) (statements clauses : Parses (List Phrase)) :
    Parses (Phrase × List Phrase) :=
  let body := (statements.map Phrase.statements).orElse (clauses.map Phrase.clauses)
  (chart.separated left head Row.sections)
    |>.orElse (body.andThen fun left body => chart.finish left (chart.row left).head body)
    |>.orElse (chart.finish left head (.statements []))

def before (head : Option Token) : Row :=
  let left := chart.size
  let (chains, tiers) := chart.ladder (chart.unary left head) unaryTier
  let expression := tiers.headD (.fail left)
  let entry := chart.entry left head expression
  let statements := chart.statementsFrom expression
  let clauses := chart.clausesFrom (chart.commaList expression Row.morePatterns)
  { head
    tiers
    chains
    trailers := chart.trailers left head
    entries := chart.commaList entry Row.moreEntries
    moreEntries := chart.afterComma entry Row.moreEntries
    statements
    moreStatements :=
      (chart.separated left head fun row => row.statements.orElse row.moreStatements)
        |>.orElse (.done left [])
    morePatterns := chart.afterComma expression Row.morePatterns
    clauses
    clauseBody := chart.clauseBodyFrom left head statements clauses
    sections := chart.sectionsFrom left head statements clauses
    program := (chart.separated left head Row.program)
      |>.orElse (statements.map Phrase.statements)
      |>.orElse (.done left (.statements [])) }

def ofTokens : List Token → Chart
  | [] => #[before #[] none]
  | t :: ts =>
    let later := ofTokens ts
    later.push (later.before (some t))

end Chart

/--
Reads tokens as a program, or gives the number of tokens left at the first one that no program has
there.
-/
def Phrase.ofTokens (tokens : List Token) : Except Nat Phrase :=
  let readings := ((Chart.ofTokens tokens).row tokens.length).program
  match readings.complete? with
  | some phrase => .ok phrase
  | none => .error readings.reach

end EmbeddedTemplate.Code
