import EmbeddedTemplate.Code.Operator
import EmbeddedTemplate.Code.Phrase

/-!
The grammar of the expression language: which phrases a run of tokens can be read as. It does not
say how a reading is found or which one is preferred; a run that can be read in two ways has two
phrases.
-/

namespace EmbeddedTemplate.Code

inductive Category
  /-- Expressions whose operators are of this tier or tighter ones. -/
  | tier (k : Nat)
  | operand
  | primary
  | entry
  | entries
  | arguments
  | statements
  | patterns
  | clause
  | clauses
  | program
  | body
  /-- The sections of a block after its first one, and its end. -/
  | parts
deriving DecidableEq, Repr

def Assoc.tiers (k : Nat) : Assoc → Nat × Nat
  | .left => (k, k + 1)
  | .right => (k + 1, k)
  | .single => (k + 1, k + 1)

def Separators (ts : List Token) : Prop := ∀ t ∈ ts, t.terminal = .sign .semicolon

/-- The tokens are a run of the category and can be read as the phrases. -/
inductive Derives : Category → List Token → List Phrase → Prop
  | tighter {k ts ps} : Derives (.tier (k + 1)) ts ps → k < unaryTier → Derives (.tier k) ts ps
  | binary {k left p op right q} : Derives (.tier ((assoc k).tiers k).1) left [p] →
      op.terminal.tier? = some k → Derives (.tier ((assoc k).tiers k).2) right [q] →
      Derives (.tier k) (left ++ op :: right) [.binary p op q]
  | unary {op ts p} : op.terminal.isUnary → Derives (.tier unaryTier) ts [p] →
      Derives (.tier unaryTier) (op :: ts) [.unary op p]
  | operand {ts ps} : Derives .operand ts ps → Derives (.tier unaryTier) ts ps
  | primary {ts ps} : Derives .primary ts ps → Derives .operand ts ps
  | remoteCall {ts p dot name opening inner args closing} : Derives .operand ts [p] →
      dot.terminal = .sign .dot → name.terminal = .name → opening.terminal = .sign .leftParen →
      Derives .arguments inner args → closing.terminal = .sign .rightParen →
      Derives .operand (ts ++ dot :: name :: opening :: inner ++ [closing])
        [.remoteCall p name args]
  | field {ts p dot name} : Derives .operand ts [p] → dot.terminal = .sign .dot →
      name.terminal = .name → Derives .operand (ts ++ [dot, name]) [.field p name]
  | access {ts p opening inner q closing} : Derives .operand ts [p] →
      opening.terminal = .sign .leftBracket → Derives (.tier 0) inner [q] →
      closing.terminal = .sign .rightBracket →
      Derives .operand (ts ++ opening :: inner ++ [closing]) [.access p q]
  | literal {t} : t.terminal.isLiteral → Derives .primary [t] [.literal t]
  | name {t} : t.terminal = .name → Derives .primary [t] [.name t]
  | modulePath {t} : t.terminal = .modulePath → Derives .primary [t] [.modulePath t]
  | assign {atSign name} : atSign.terminal = .sign .atSign → name.terminal = .name →
      Derives .primary [atSign, name] [.assign atSign name]
  | call {name opening inner args closing} : name.terminal = .name →
      opening.terminal = .sign .leftParen → Derives .arguments inner args →
      closing.terminal = .sign .rightParen →
      Derives .primary (name :: opening :: inner ++ [closing]) [.call name args]
  | block {name inner args opening ts body rest parts} : name.terminal = .name →
      Derives .arguments inner args → opening.terminal = .word .doWord →
      Derives .body ts [body] → Derives .parts rest parts →
      Derives .primary (name :: inner ++ opening :: ts ++ rest)
        [.block name args (.part opening body :: parts)]
  | parens {opening inner p closing} : opening.terminal = .sign .leftParen →
      Derives (.tier 0) inner [p] → closing.terminal = .sign .rightParen →
      Derives .primary (opening :: inner ++ [closing]) [.parens opening p]
  | list {opening inner items closing} : opening.terminal = .sign .leftBracket →
      Derives .arguments inner items → closing.terminal = .sign .rightBracket →
      Derives .primary (opening :: inner ++ [closing]) [.list opening items]
  | tuple {opening inner items closing} : opening.terminal = .sign .leftBrace →
      Derives .arguments inner items → closing.terminal = .sign .rightBrace →
      Derives .primary (opening :: inner ++ [closing]) [.tuple opening items]
  | expression {ts ps} : Derives (.tier 0) ts ps → Derives .entry ts ps
  | keyword {key ts p} : key.terminal = .key → Derives (.tier 0) ts [p] →
      Derives .entry (key :: ts) [.keyword key p]
  | lastEntry {ts ps} : Derives .entry ts ps → Derives .entries ts ps
  | moreEntries {ts p comma rest ps} : Derives .entry ts [p] → comma.terminal = .sign .comma →
      Derives .entries rest ps → Derives .entries (ts ++ comma :: rest) (p :: ps)
  | noArguments : Derives .arguments [] []
  | someArguments {ts ps} : Derives .entries ts ps → Derives .arguments ts ps
  | lastStatement {ts ps gap} : Derives (.tier 0) ts ps → Separators gap →
      Derives .statements (ts ++ gap) ps
  | moreStatements {ts p gap rest ps} : Derives (.tier 0) ts [p] → Separators gap → gap ≠ [] →
      Derives .statements rest ps → Derives .statements (ts ++ gap ++ rest) (p :: ps)
  | lastPattern {ts ps} : Derives (.tier 0) ts ps → Derives .patterns ts ps
  | morePatterns {ts p comma rest ps} : Derives (.tier 0) ts [p] → comma.terminal = .sign .comma →
      Derives .patterns rest ps → Derives .patterns (ts ++ comma :: rest) (p :: ps)
  | clause {ts ps arrow rest body} : Derives .patterns ts ps → arrow.terminal = .sign .arrow →
      Derives .program rest [body] → Derives .clause (ts ++ arrow :: rest) [.clause ps body]
  | lastClause {ts ps} : Derives .clause ts ps → Derives .clauses ts ps
  | moreClauses {ts p rest ps} : Derives .clause ts [p] → Derives .clauses rest ps →
      Derives .clauses (ts ++ rest) (p :: ps)
  | noStatements {gap} : Separators gap → Derives .program gap [.statements []]
  | someStatements {gap ts ps} : Separators gap → Derives .statements ts ps →
      Derives .program (gap ++ ts) [.statements ps]
  | statements {ts ps} : Derives .program ts ps → Derives .body ts ps
  | clauses {gap ts ps} : Separators gap → Derives .clauses ts ps →
      Derives .body (gap ++ ts) [.clauses ps]
  | noParts {closing} : closing.terminal = .word .endWord → Derives .parts [closing] []
  | moreParts {label w ts body rest ps} : label.terminal = .word w → w.opensSection →
      Derives .body ts [body] → Derives .parts rest ps →
      Derives .parts (label :: ts ++ rest) (.part label body :: ps)

/-- Tokens that some program starts with. -/
def Viable (ts : List Token) : Prop := ∃ rest ps, Derives .program (ts ++ rest) ps

variable {i k : Nat} {ts us : List Token} {ps : List Phrase}

namespace Derives

theorem tier_le (h : Derives (.tier k) ts ps) (hi : i ≤ k) (hk : k ≤ unaryTier) :
    Derives (.tier i) ts ps := by
  induction k with
  | zero => exact Nat.le_zero.1 hi ▸ h
  | succ k ih =>
    rcases Nat.lt_or_eq_of_le hi with hi | rfl
    · exact ih (.tighter h (by omega)) (Nat.lt_succ_iff.1 hi) (by omega)
    · exact h

theorem tier_of_primary (h : Derives .primary ts ps) (hk : k ≤ unaryTier) :
    Derives (.tier k) ts ps :=
  tier_le (.operand (.primary h)) hk (Nat.le_refl _)

theorem program_of_tier (h : Derives (.tier 0) ts ps) : Derives .program ts [.statements ps] := by
  have none : Separators [] := by simp [Separators]
  have : Derives .program ([] ++ (ts ++ [])) [.statements ps] :=
    .someStatements none (.lastStatement h none)
  simpa using this

end Derives

theorem Viable.of_append (h : Viable (ts ++ us)) : Viable ts := by
  obtain ⟨rest, ps, h⟩ := h
  exact ⟨us ++ rest, ps, by rwa [List.append_assoc] at h⟩

theorem viable_nil : Viable [] := ⟨[], _, .noStatements (by simp [Separators])⟩

end EmbeddedTemplate.Code
