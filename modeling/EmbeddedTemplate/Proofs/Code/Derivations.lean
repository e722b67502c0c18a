import EmbeddedTemplate.Proofs.Code.Determinism
import EmbeddedTemplate.Proofs.Code.Parsing
import EmbeddedTemplate.Proofs.Code.Rereading

/-!
Derivations as data. That a run of tokens derives from the grammar is a proposition, and all its
proofs are equal; here the productions by which it derives are kept, so that derivations can be
counted. Tokens without a `do` have one at most.
-/

namespace EmbeddedTemplate.Code

abbrev TokenIf (p : Terminal → Prop) := {t : Token // p t.terminal}

abbrev SignToken (s : Sign) := TokenIf (· = .sign s)

abbrev NameToken := TokenIf (· = .name)

abbrev Gap := {ts : List Token // Separators ts}

/-- A derivation from a category: the production at its top, and the derivations of its parts. -/
inductive Derivation : Category → Type
  | tighter {k} : k < unaryTier → Derivation (.tier (k + 1)) → Derivation (.tier k)
  | binary {k} : Derivation (.tier ((assoc k).tiers k).1) → TokenIf (·.tier? = some k) →
      Derivation (.tier ((assoc k).tiers k).2) → Derivation (.tier k)
  | unary : TokenIf (·.isUnary) → Derivation (.tier unaryTier) → Derivation (.tier unaryTier)
  | operand : Derivation .operand → Derivation (.tier unaryTier)
  | primary : Derivation .primary → Derivation .operand
  | remoteCall : Derivation .operand → SignToken .dot → NameToken → SignToken .leftParen →
      Derivation .arguments → SignToken .rightParen → Derivation .operand
  | field : Derivation .operand → SignToken .dot → NameToken → Derivation .operand
  | access : Derivation .operand → SignToken .leftBracket → Derivation (.tier 0) →
      SignToken .rightBracket → Derivation .operand
  | literal : TokenIf (·.isLiteral) → Derivation .primary
  | name : NameToken → Derivation .primary
  | modulePath : TokenIf (· = .modulePath) → Derivation .primary
  | assign : SignToken .atSign → NameToken → Derivation .primary
  | call : NameToken → SignToken .leftParen → Derivation .arguments → SignToken .rightParen →
      Derivation .primary
  | block : NameToken → Derivation .arguments → TokenIf (· = .word .doWord) → Derivation .body →
      Derivation .parts → Derivation .primary
  | parens : SignToken .leftParen → Derivation (.tier 0) → SignToken .rightParen →
      Derivation .primary
  | list : SignToken .leftBracket → Derivation .arguments → SignToken .rightBracket →
      Derivation .primary
  | tuple : SignToken .leftBrace → Derivation .arguments → SignToken .rightBrace →
      Derivation .primary
  | expression : Derivation (.tier 0) → Derivation .entry
  | keyword : TokenIf (· = .key) → Derivation (.tier 0) → Derivation .entry
  | lastEntry : Derivation .entry → Derivation .entries
  | moreEntries : Derivation .entry → SignToken .comma → Derivation .entries → Derivation .entries
  | noArguments : Derivation .arguments
  | someArguments : Derivation .entries → Derivation .arguments
  | lastStatement : Derivation (.tier 0) → Gap → Derivation .statements
  | moreStatements : Derivation (.tier 0) → (gap : Gap) → gap.1 ≠ [] → Derivation .statements →
      Derivation .statements
  | lastPattern : Derivation (.tier 0) → Derivation .patterns
  | morePatterns : Derivation (.tier 0) → SignToken .comma → Derivation .patterns →
      Derivation .patterns
  | clause : Derivation .patterns → SignToken .arrow → Derivation .program → Derivation .clause
  | lastClause : Derivation .clause → Derivation .clauses
  | moreClauses : Derivation .clause → Derivation .clauses → Derivation .clauses
  | noStatements : Gap → Derivation .program
  | someStatements : Gap → Derivation .statements → Derivation .program
  | statements : Derivation .program → Derivation .body
  | clauses : Gap → Derivation .clauses → Derivation .body
  | noParts : TokenIf (· = .word .endWord) → Derivation .parts
  | moreParts : TokenIf (fun x => ∃ w, x = .word w ∧ w.opensSection) → Derivation .body →
      Derivation .parts → Derivation .parts

abbrev Category.Reading : Category → Type
  | .entries | .arguments | .statements | .patterns | .clauses | .parts => List Phrase
  | _ => Phrase

def Category.phrases : (c : Category) → c.Reading → List Phrase
  | .entries, ps | .arguments, ps | .statements, ps | .patterns, ps | .clauses, ps
  | .parts, ps => ps
  | .tier _, p | .operand, p | .primary, p | .entry, p | .clause, p | .program, p | .body, p => [p]

namespace Derivation

variable {c : Category}

def yield : {c : Category} → Derivation c → List Token
  | _, .tighter _ d | _, .operand d | _, .primary d | _, .expression d | _, .lastEntry d
  | _, .someArguments d | _, .lastPattern d | _, .lastClause d | _, .statements d => d.yield
  | _, .binary left op right => left.yield ++ op.1 :: right.yield
  | _, .unary op d => op.1 :: d.yield
  | _, .remoteCall d dot t opening args closing =>
    d.yield ++ dot.1 :: t.1 :: opening.1 :: args.yield ++ [closing.1]
  | _, .field d dot t => d.yield ++ [dot.1, t.1]
  | _, .access d opening key closing => d.yield ++ opening.1 :: key.yield ++ [closing.1]
  | _, .literal t => [t.1]
  | _, .name t => [t.1]
  | _, .modulePath t => [t.1]
  | _, .assign atSign t => [atSign.1, t.1]
  | _, .call t opening args closing => t.1 :: opening.1 :: args.yield ++ [closing.1]
  | _, .block t args opening body parts =>
    t.1 :: args.yield ++ opening.1 :: body.yield ++ parts.yield
  | _, .parens opening d closing => opening.1 :: d.yield ++ [closing.1]
  | _, .list opening items closing => opening.1 :: items.yield ++ [closing.1]
  | _, .tuple opening items closing => opening.1 :: items.yield ++ [closing.1]
  | _, .keyword key d => key.1 :: d.yield
  | _, .moreEntries d comma ds => d.yield ++ comma.1 :: ds.yield
  | _, .noArguments => []
  | _, .lastStatement d gap => d.yield ++ gap.1
  | _, .moreStatements d gap _ ds => d.yield ++ gap.1 ++ ds.yield
  | _, .morePatterns d comma ds => d.yield ++ comma.1 :: ds.yield
  | _, .clause ds arrow d => ds.yield ++ arrow.1 :: d.yield
  | _, .moreClauses d ds => d.yield ++ ds.yield
  | _, .noStatements gap => gap.1
  | _, .someStatements gap ds => gap.1 ++ ds.yield
  | _, .clauses gap ds => gap.1 ++ ds.yield
  | _, .noParts closing => [closing.1]
  | _, .moreParts label d ds => label.1 :: d.yield ++ ds.yield

def read : {c : Category} → Derivation c → c.Reading
  | _, .tighter _ d => d.read
  | _, .binary left op right => .binary left.read op right.read
  | _, .unary op d => .unary op d.read
  | _, .operand d => d.read
  | _, .primary d => d.read
  | _, .remoteCall d _ t _ args _ => .remoteCall d.read t args.read
  | _, .field d _ t => .field d.read t
  | _, .access d _ key _ => .access d.read key.read
  | _, .literal t => .literal t
  | _, .name t => .name t
  | _, .modulePath t => .modulePath t
  | _, .assign atSign t => .assign atSign t
  | _, .call t _ args _ => .call t args.read
  | _, .block t args opening body parts =>
    .block t args.read (.part opening body.read :: parts.read)
  | _, .parens opening d _ => .parens opening d.read
  | _, .list opening items _ => .list opening items.read
  | _, .tuple opening items _ => .tuple opening items.read
  | _, .expression d => d.read
  | _, .keyword key d => .keyword key d.read
  | _, .lastEntry d => [d.read]
  | _, .moreEntries d _ ds => d.read :: ds.read
  | _, .noArguments => []
  | _, .someArguments ds => ds.read
  | _, .lastStatement d _ => [d.read]
  | _, .moreStatements d _ _ ds => d.read :: ds.read
  | _, .lastPattern d => [d.read]
  | _, .morePatterns d _ ds => d.read :: ds.read
  | _, .clause ds _ d => .clause ds.read d.read
  | _, .lastClause d => [d.read]
  | _, .moreClauses d ds => d.read :: ds.read
  | _, .noStatements _ => .statements []
  | _, .someStatements _ ds => .statements ds.read
  | _, .statements d => d.read
  | _, .clauses _ ds => .clauses ds.read
  | _, .noParts _ => []
  | _, .moreParts label d ds => .part label d.read :: ds.read

theorem derives (d : Derivation c) : Derives c d.yield (c.phrases d.read) := by
  induction d with
  | tighter hk _ ih => exact .tighter ih hk
  | binary _ op _ ihl ihr => exact .binary ihl op.2 ihr
  | unary op _ ih => exact .unary op.2 ih
  | operand _ ih => exact .operand ih
  | primary _ ih => exact .primary ih
  | remoteCall _ dot t opening _ closing ih ihargs =>
    exact .remoteCall ih dot.2 t.2 opening.2 ihargs closing.2
  | field _ dot t ih => exact .field ih dot.2 t.2
  | access _ opening _ closing ih ihkey => exact .access ih opening.2 ihkey closing.2
  | literal t => exact .literal t.2
  | name t => exact .name t.2
  | modulePath t => exact .modulePath t.2
  | assign atSign t => exact .assign atSign.2 t.2
  | call t opening _ closing ih => exact .call t.2 opening.2 ih closing.2
  | block t _ opening _ _ ihargs ihbody ihparts => exact .block t.2 ihargs opening.2 ihbody ihparts
  | parens opening _ closing ih => exact .parens opening.2 ih closing.2
  | list opening _ closing ih => exact .list opening.2 ih closing.2
  | tuple opening _ closing ih => exact .tuple opening.2 ih closing.2
  | expression _ ih => exact .expression ih
  | keyword key _ ih => exact .keyword key.2 ih
  | lastEntry _ ih => exact .lastEntry ih
  | moreEntries _ comma _ ih ihs => exact .moreEntries ih comma.2 ihs
  | noArguments => exact .noArguments
  | someArguments _ ih => exact .someArguments ih
  | lastStatement _ gap ih => exact .lastStatement ih gap.2
  | moreStatements _ gap hne _ ih ihs => exact .moreStatements ih gap.2 hne ihs
  | lastPattern _ ih => exact .lastPattern ih
  | morePatterns _ comma _ ih ihs => exact .morePatterns ih comma.2 ihs
  | clause _ arrow _ ihs ih => exact .clause ihs arrow.2 ih
  | lastClause _ ih => exact .lastClause ih
  | moreClauses _ _ ih ihs => exact .moreClauses ih ihs
  | noStatements gap => exact .noStatements gap.2
  | someStatements gap _ ih => exact .someStatements gap.2 ih
  | statements _ ih => exact .statements ih
  | clauses gap _ ih => exact .clauses gap.2 ih
  | noParts closing => exact .noParts closing.2
  | moreParts label _ _ ih ihs =>
    obtain ⟨w, hw, ho⟩ := label.2
    exact .moreParts hw ho ih ihs

end Derivation

theorem Derives.exists_derivation {c : Category} {ts : List Token} {ps : List Phrase}
    (h : Derives c ts ps) : ∃ d : Derivation c, d.yield = ts ∧ c.phrases d.read = ps := by
  induction h with
  | tighter _ hk ih =>
    obtain ⟨d, rfl, rfl⟩ := ih
    exact ⟨.tighter hk d, rfl, rfl⟩
  | @binary k left p op right q _ hop _ ihl ihr =>
    obtain ⟨d, rfl, ⟨⟩⟩ := ihl
    obtain ⟨e, rfl, ⟨⟩⟩ := ihr
    exact ⟨.binary d ⟨op, hop⟩ e, rfl, rfl⟩
  | @unary op ts p hop _ ih =>
    obtain ⟨d, rfl, ⟨⟩⟩ := ih
    exact ⟨.unary ⟨op, hop⟩ d, rfl, rfl⟩
  | operand _ ih =>
    obtain ⟨d, rfl, rfl⟩ := ih
    exact ⟨.operand d, rfl, rfl⟩
  | primary _ ih =>
    obtain ⟨d, rfl, rfl⟩ := ih
    exact ⟨.primary d, rfl, rfl⟩
  | @remoteCall ts p dot name opening inner args closing _ hd hm ho _ hc ih ihargs =>
    obtain ⟨d, rfl, ⟨⟩⟩ := ih
    obtain ⟨e, rfl, rfl⟩ := ihargs
    exact ⟨.remoteCall d ⟨dot, hd⟩ ⟨name, hm⟩ ⟨opening, ho⟩ e ⟨closing, hc⟩, rfl, rfl⟩
  | @field ts p dot name _ hd hm ih =>
    obtain ⟨d, rfl, ⟨⟩⟩ := ih
    exact ⟨.field d ⟨dot, hd⟩ ⟨name, hm⟩, rfl, rfl⟩
  | @access ts p opening inner q closing _ ho _ hc ih ihkey =>
    obtain ⟨d, rfl, ⟨⟩⟩ := ih
    obtain ⟨e, rfl, ⟨⟩⟩ := ihkey
    exact ⟨.access d ⟨opening, ho⟩ e ⟨closing, hc⟩, rfl, rfl⟩
  | @literal t ht => exact ⟨.literal ⟨t, ht⟩, rfl, rfl⟩
  | @name t ht => exact ⟨.name ⟨t, ht⟩, rfl, rfl⟩
  | @modulePath t ht => exact ⟨.modulePath ⟨t, ht⟩, rfl, rfl⟩
  | @assign atSign name hs hn => exact ⟨.assign ⟨atSign, hs⟩ ⟨name, hn⟩, rfl, rfl⟩
  | @call name opening inner args closing hm ho _ hc ih =>
    obtain ⟨d, rfl, rfl⟩ := ih
    exact ⟨.call ⟨name, hm⟩ ⟨opening, ho⟩ d ⟨closing, hc⟩, rfl, rfl⟩
  | @block name inner args opening ts body rest parts hm _ ho _ _ ihargs ihbody ihparts =>
    obtain ⟨d, rfl, rfl⟩ := ihargs
    obtain ⟨e, rfl, ⟨⟩⟩ := ihbody
    obtain ⟨f, rfl, rfl⟩ := ihparts
    exact ⟨.block ⟨name, hm⟩ d ⟨opening, ho⟩ e f, rfl, rfl⟩
  | @parens opening inner p closing ho _ hc ih =>
    obtain ⟨d, rfl, ⟨⟩⟩ := ih
    exact ⟨.parens ⟨opening, ho⟩ d ⟨closing, hc⟩, rfl, rfl⟩
  | @list opening inner items closing ho _ hc ih =>
    obtain ⟨d, rfl, rfl⟩ := ih
    exact ⟨.list ⟨opening, ho⟩ d ⟨closing, hc⟩, rfl, rfl⟩
  | @tuple opening inner items closing ho _ hc ih =>
    obtain ⟨d, rfl, rfl⟩ := ih
    exact ⟨.tuple ⟨opening, ho⟩ d ⟨closing, hc⟩, rfl, rfl⟩
  | expression _ ih =>
    obtain ⟨d, rfl, rfl⟩ := ih
    exact ⟨.expression d, rfl, rfl⟩
  | @keyword key ts p hk _ ih =>
    obtain ⟨d, rfl, ⟨⟩⟩ := ih
    exact ⟨.keyword ⟨key, hk⟩ d, rfl, rfl⟩
  | lastEntry _ ih =>
    obtain ⟨d, rfl, rfl⟩ := ih
    exact ⟨.lastEntry d, rfl, rfl⟩
  | @moreEntries ts p comma rest ps _ hc _ ih ihs =>
    obtain ⟨d, rfl, ⟨⟩⟩ := ih
    obtain ⟨ds, rfl, rfl⟩ := ihs
    exact ⟨.moreEntries d ⟨comma, hc⟩ ds, rfl, rfl⟩
  | noArguments => exact ⟨.noArguments, rfl, rfl⟩
  | someArguments _ ih =>
    obtain ⟨d, rfl, rfl⟩ := ih
    exact ⟨.someArguments d, rfl, rfl⟩
  | @lastStatement ts ps gap _ hgap ih =>
    obtain ⟨d, rfl, rfl⟩ := ih
    exact ⟨.lastStatement d ⟨gap, hgap⟩, rfl, rfl⟩
  | @moreStatements ts p gap rest ps _ hgap hne _ ih ihs =>
    obtain ⟨d, rfl, ⟨⟩⟩ := ih
    obtain ⟨ds, rfl, rfl⟩ := ihs
    exact ⟨.moreStatements d ⟨gap, hgap⟩ hne ds, rfl, rfl⟩
  | lastPattern _ ih =>
    obtain ⟨d, rfl, rfl⟩ := ih
    exact ⟨.lastPattern d, rfl, rfl⟩
  | @morePatterns ts p comma rest ps _ hc _ ih ihs =>
    obtain ⟨d, rfl, ⟨⟩⟩ := ih
    obtain ⟨ds, rfl, rfl⟩ := ihs
    exact ⟨.morePatterns d ⟨comma, hc⟩ ds, rfl, rfl⟩
  | @clause ts ps arrow rest body _ harrow _ ihs ih =>
    obtain ⟨ds, rfl, rfl⟩ := ihs
    obtain ⟨d, rfl, ⟨⟩⟩ := ih
    exact ⟨.clause ds ⟨arrow, harrow⟩ d, rfl, rfl⟩
  | lastClause _ ih =>
    obtain ⟨d, rfl, rfl⟩ := ih
    exact ⟨.lastClause d, rfl, rfl⟩
  | @moreClauses ts p rest ps _ _ ih ihs =>
    obtain ⟨d, rfl, ⟨⟩⟩ := ih
    obtain ⟨ds, rfl, rfl⟩ := ihs
    exact ⟨.moreClauses d ds, rfl, rfl⟩
  | @noStatements gap hgap => exact ⟨.noStatements ⟨gap, hgap⟩, rfl, rfl⟩
  | @someStatements gap ts ps hgap _ ih =>
    obtain ⟨ds, rfl, rfl⟩ := ih
    exact ⟨.someStatements ⟨gap, hgap⟩ ds, rfl, rfl⟩
  | statements _ ih =>
    obtain ⟨d, rfl, rfl⟩ := ih
    exact ⟨.statements d, rfl, rfl⟩
  | @clauses gap ts ps hgap _ ih =>
    obtain ⟨ds, rfl, rfl⟩ := ih
    exact ⟨.clauses ⟨gap, hgap⟩ ds, rfl, rfl⟩
  | @noParts closing hc => exact ⟨.noParts ⟨closing, hc⟩, rfl, rfl⟩
  | @moreParts label w ts body rest ps hl hw _ _ ih ihs =>
    obtain ⟨d, rfl, ⟨⟩⟩ := ih
    obtain ⟨ds, rfl, rfl⟩ := ihs
    exact ⟨.moreParts ⟨label, w, hl, hw⟩ d ds, rfl, rfl⟩

theorem derives_iff_exists_derivation {c : Category} {ts : List Token} {ps : List Phrase} :
    Derives c ts ps ↔ ∃ d : Derivation c, d.yield = ts ∧ c.phrases d.read = ps := by
  refine ⟨Derives.exists_derivation, ?_⟩
  rintro ⟨d, rfl, rfl⟩
  exact d.derives

def Phrase.tier : Phrase → Nat
  | .binary _ op _ => op.terminal.tier?.getD 0
  | .unary _ _ => unaryTier
  | .remoteCall _ _ _ | .field _ _ | .access _ _ => unaryTier + 1
  | _ => unaryTier + 2

theorem Phrase.tier_binary {k : Nat} {op : Token} (h : op.terminal.tier? = some k)
    (p q : Phrase) : (Phrase.binary p op q).tier = k := by
  rw [tier, h, Option.getD_some]

/-- How tightly the phrases of a category bind at least. -/
def Category.floor : Category → Nat
  | .tier k => k
  | .operand => unaryTier + 1
  | .primary => unaryTier + 2
  | _ => 0

def Category.isInner : Category → Bool
  | .entry | .entries | .arguments => true
  | c => c.isExpression

namespace Derivation

variable {c : Category} {rest rest' : List Token}

theorem tier_le (d : Derivation c) : ∀ p ∈ c.phrases d.read, c.floor ≤ p.tier := by
  induction d with
  | tighter _ _ ih | operand _ ih | primary _ ih =>
    exact fun p hp => Nat.le_trans (by simp [Category.floor]) (ih p hp)
  | binary _ op _ => exact List.forall_mem_singleton.2 (Phrase.tier_binary op.2 _ _).ge
  | unary | remoteCall | field | access | literal | name | modulePath | assign | call | block
  | parens | list | tuple => exact List.forall_mem_singleton.2 (Nat.le_refl _)
  | _ => exact fun _ _ => Nat.zero_le _

theorem read_ne_nil (d : Derivation .entries) : d.read ≠ [] := by
  cases d <;> exact List.cons_ne_nil _ _

theorem statements_ne_nil (d : Derivation .statements) : d.read ≠ [] := by
  cases d <;> exact List.cons_ne_nil _ _

theorem eq_of_bracketed {p q : Terminal → Prop} {d d' : Derivation c} {opening opening' : TokenIf p}
    {closing closing' : TokenIf q}
    (hd : ∀ {rest rest'}, d.yield ++ rest = d'.yield ++ rest' → d = d')
    (h : opening.1 :: (d.yield ++ closing.1 :: rest) =
      opening'.1 :: (d'.yield ++ closing'.1 :: rest')) :
    opening = opening' ∧ d = d' ∧ closing = closing' := by
  obtain ⟨ho, h⟩ := List.cons.inj h
  obtain rfl := hd h
  obtain ⟨hc, -⟩ := List.cons.inj (List.append_cancel_left h)
  exact ⟨Subtype.ext ho, rfl, Subtype.ext hc⟩

theorem eq_of_read (d d' : Derivation c) (hc : c.isInner) (h : d.yield ++ rest = d'.yield ++ rest')
    (hr : d.read = d'.read) (hdo : ∀ t ∈ d.yield, t.terminal ≠ .word .doWord) : d = d' := by
  -- The reading tells the production: another one would read another form, or one that binds too
  -- loosely for its place. What is left unsaid, brackets and commas, is in the tokens.
  induction d generalizing rest rest' with
  | @tighter k hk d ih =>
    cases d' with
    | tighter _ d' => rw [ih d' rfl h hr hdo]
    | binary left op right =>
      have hle := (d.tier_le _ (List.mem_singleton.2 hr.symm)).trans_eq
        (Phrase.tier_binary op.2 _ _)
      exact absurd hle (Nat.not_succ_le_self k)
    | unary | operand => exact absurd hk (Nat.lt_irrefl _)
  | @binary k left op right ihl ihr =>
    cases d' with
    | tighter _ d' =>
      have hle := (d'.tier_le _ (List.mem_singleton.2 hr)).trans_eq (Phrase.tier_binary op.2 _ _)
      exact absurd hle (Nat.not_succ_le_self k)
    | binary left' op' right' =>
      obtain ⟨hleft, -, hright⟩ := Phrase.binary.inj hr
      simp only [yield, List.append_assoc, List.cons_append] at h
      obtain rfl := ihl left' rfl h hleft fun t ht => hdo t (by simp [yield, ht])
      obtain ⟨hop, htail⟩ := List.cons.inj (List.append_cancel_left h)
      rw [Subtype.ext hop, ihr right' rfl htail hright fun t ht => hdo t (by simp [yield, ht])]
    | unary | operand => exact absurd (Terminal.tier?_lt op.2) (Nat.lt_irrefl _)
  | unary op d ih =>
    cases d' with
    | tighter hk => exact absurd hk (Nat.lt_irrefl _)
    | binary _ op => exact absurd (Terminal.tier?_lt op.2) (Nat.lt_irrefl _)
    | unary op' d' =>
      obtain ⟨-, hread⟩ := Phrase.unary.inj hr
      obtain ⟨hop, htail⟩ := List.cons.inj h
      rw [Subtype.ext hop, ih d' rfl htail hread fun t ht => hdo t (List.mem_cons_of_mem _ ht)]
    | operand d' =>
      have hle := d'.tier_le _ (List.mem_singleton.2 hr)
      exact absurd hle (Nat.not_succ_le_self _)
  | operand d ih =>
    cases d' with
    | tighter hk => exact absurd hk (Nat.lt_irrefl _)
    | binary _ op => exact absurd (Terminal.tier?_lt op.2) (Nat.lt_irrefl _)
    | unary op d' =>
      have hle := d.tier_le _ (List.mem_singleton.2 hr.symm)
      exact absurd hle (Nat.not_succ_le_self _)
    | operand d' => rw [ih d' rfl h hr hdo]
  | primary d ih =>
    cases d' with
    | primary d' => rw [ih d' rfl h hr hdo]
    | remoteCall | field | access =>
      have hle := d.tier_le _ (List.mem_singleton.2 hr.symm)
      exact absurd hle (Nat.not_succ_le_self _)
  | remoteCall d dot t opening args closing ih ihargs =>
    cases d' with
    | primary d' =>
      have hle := d'.tier_le _ (List.mem_singleton.2 hr)
      exact absurd hle (Nat.not_succ_le_self _)
    | remoteCall d' dot' t' opening' args' closing' =>
      obtain ⟨hread, -, hargs⟩ := Phrase.remoteCall.inj hr
      simp only [yield, List.append_assoc, List.cons_append, List.nil_append] at h
      obtain rfl := ih d' rfl h hread fun t ht => hdo t (by simp [yield, ht])
      obtain ⟨hdot, h⟩ := List.cons.inj (List.append_cancel_left h)
      obtain ⟨ht, h⟩ := List.cons.inj h
      obtain ⟨rfl, rfl, rfl⟩ := eq_of_bracketed
        (fun h => ihargs args' rfl h hargs fun t ht => hdo t (by simp [yield, ht])) h
      rw [Subtype.ext hdot, Subtype.ext ht]
    | field | access => cases hr
  | field d dot t ih =>
    cases d' with
    | primary d' =>
      have hle := d'.tier_le _ (List.mem_singleton.2 hr)
      exact absurd hle (Nat.not_succ_le_self _)
    | field d' dot' t' =>
      obtain ⟨hread, -⟩ := Phrase.field.inj hr
      simp only [yield, List.append_assoc, List.cons_append, List.nil_append] at h
      obtain rfl := ih d' rfl h hread fun t ht => hdo t (by simp [yield, ht])
      obtain ⟨hdot, h⟩ := List.cons.inj (List.append_cancel_left h)
      obtain ⟨ht, h⟩ := List.cons.inj h
      rw [Subtype.ext hdot, Subtype.ext ht]
    | remoteCall | access => cases hr
  | access d opening key closing ih ihkey =>
    cases d' with
    | primary d' =>
      have hle := d'.tier_le _ (List.mem_singleton.2 hr)
      exact absurd hle (Nat.not_succ_le_self _)
    | access d' opening' key' closing' =>
      obtain ⟨hread, hkey⟩ := Phrase.access.inj hr
      simp only [yield, List.append_assoc, List.cons_append, List.nil_append] at h
      obtain rfl := ih d' rfl h hread fun t ht => hdo t (by simp [yield, ht])
      obtain ⟨rfl, rfl, rfl⟩ := eq_of_bracketed
        (fun h => ihkey key' rfl h hkey fun t ht => hdo t (by simp [yield, ht]))
        (List.append_cancel_left h)
      rfl
    | remoteCall | field => cases hr
  | literal t =>
    cases d' with
    | literal t' => rw [Subtype.ext (List.cons.inj h).1]
    | _ => cases hr
  | name t =>
    cases d' with
    | name t' => rw [Subtype.ext (List.cons.inj h).1]
    | _ => cases hr
  | modulePath t =>
    cases d' with
    | modulePath t' => rw [Subtype.ext (List.cons.inj h).1]
    | _ => cases hr
  | assign atSign t =>
    cases d' with
    | assign atSign' t' =>
      obtain ⟨hs, h⟩ := List.cons.inj h
      rw [Subtype.ext hs, Subtype.ext (List.cons.inj h).1]
    | _ => cases hr
  | call t opening args closing ih =>
    cases d' with
    | call t' opening' args' closing' =>
      obtain ⟨-, hargs⟩ := Phrase.call.inj hr
      simp only [yield, List.append_assoc, List.cons_append, List.nil_append] at h
      obtain ⟨ht, h⟩ := List.cons.inj h
      obtain ⟨rfl, rfl, rfl⟩ := eq_of_bracketed
        (fun h => ih args' rfl h hargs fun t ht => hdo t (by simp [yield, ht])) h
      rw [Subtype.ext ht]
    | _ => cases hr
  | block t args opening => exact absurd opening.2 (hdo opening.1 (by simp [yield]))
  | parens opening d closing ih =>
    cases d' with
    | parens opening' d' closing' =>
      obtain ⟨-, hread⟩ := Phrase.parens.inj hr
      simp only [yield, List.append_assoc, List.cons_append, List.nil_append] at h
      obtain ⟨rfl, rfl, rfl⟩ := eq_of_bracketed
        (fun h => ih d' rfl h hread fun t ht => hdo t (by simp [yield, ht])) h
      rfl
    | _ => cases hr
  | list opening d closing ih =>
    cases d' with
    | list opening' d' closing' =>
      obtain ⟨-, hread⟩ := Phrase.list.inj hr
      simp only [yield, List.append_assoc, List.cons_append, List.nil_append] at h
      obtain ⟨rfl, rfl, rfl⟩ := eq_of_bracketed
        (fun h => ih d' rfl h hread fun t ht => hdo t (by simp [yield, ht])) h
      rfl
    | _ => cases hr
  | tuple opening d closing ih =>
    cases d' with
    | tuple opening' d' closing' =>
      obtain ⟨-, hread⟩ := Phrase.tuple.inj hr
      simp only [yield, List.append_assoc, List.cons_append, List.nil_append] at h
      obtain ⟨rfl, rfl, rfl⟩ := eq_of_bracketed
        (fun h => ih d' rfl h hread fun t ht => hdo t (by simp [yield, ht])) h
      rfl
    | _ => cases hr
  | expression d ih =>
    cases d' with
    | expression d' => rw [ih d' rfl h hr hdo]
    | keyword key d' =>
      have hkey := d.derives.not_isKeyword
      rw [show d.read = Phrase.keyword key d'.read from hr] at hkey
      cases hkey
  | keyword key d ih =>
    cases d' with
    | expression d' =>
      have hkey := d'.derives.not_isKeyword
      rw [show d'.read = Phrase.keyword key d.read from hr.symm] at hkey
      cases hkey
    | keyword key' d' =>
      obtain ⟨-, hread⟩ := Phrase.keyword.inj hr
      obtain ⟨hk, htail⟩ := List.cons.inj h
      rw [Subtype.ext hk, ih d' rfl htail hread fun t ht => hdo t (List.mem_cons_of_mem _ ht)]
  | lastEntry d ih =>
    cases d' with
    | lastEntry d' => rw [ih d' rfl h (List.cons.inj hr).1 hdo]
    | moreEntries _ _ ds' => exact absurd (List.cons.inj hr).2.symm ds'.read_ne_nil
  | moreEntries d comma ds ih ihs =>
    cases d' with
    | lastEntry => exact absurd (List.cons.inj hr).2 ds.read_ne_nil
    | moreEntries d' comma' ds' =>
      obtain ⟨hread, hreads⟩ := List.cons.inj hr
      simp only [yield, List.append_assoc, List.cons_append] at h
      obtain rfl := ih d' rfl h hread fun t ht => hdo t (by simp [yield, ht])
      obtain ⟨hcomma, htail⟩ := List.cons.inj (List.append_cancel_left h)
      rw [Subtype.ext hcomma, ihs ds' rfl htail hreads fun t ht => hdo t (by simp [yield, ht])]
  | noArguments =>
    cases d' with
    | noArguments => rfl
    | someArguments ds' => exact absurd hr.symm ds'.read_ne_nil
  | someArguments ds ih =>
    cases d' with
    | noArguments => exact absurd hr ds.read_ne_nil
    | someArguments ds' => rw [ih ds' rfl h hr hdo]
  | _ => cases hc

theorem eq_of_statements : (ds ds' : Derivation .statements) → ds.yield = ds'.yield →
    ds.read = ds'.read → (∀ t ∈ ds.yield, t.terminal ≠ .word .doWord) → ds = ds'
  | .lastStatement d gap, .lastStatement d' gap', h, hr, hdo => by
    obtain rfl := eq_of_read d d' rfl h (List.cons.inj hr).1 fun t ht => hdo t (by simp [yield, ht])
    rw [Subtype.ext (List.append_cancel_left h)]
  | .lastStatement _ _, .moreStatements _ _ _ ds', _, hr, _ =>
    absurd (List.cons.inj hr).2.symm ds'.statements_ne_nil
  | .moreStatements _ _ _ ds, .lastStatement _ _, _, hr, _ =>
    absurd (List.cons.inj hr).2 ds.statements_ne_nil
  | .moreStatements d gap hne ds, .moreStatements d' gap' hne' ds', h, hr, hdo => by
    obtain ⟨hread, hreads⟩ := List.cons.inj hr
    simp only [yield, List.append_assoc] at h
    obtain rfl := eq_of_read d d' rfl h hread fun t ht => hdo t (by simp [yield, ht])
    obtain ⟨x, more, hx, hstart⟩ := ds.derives.exists_statement
    obtain ⟨y, more', hy, hstart'⟩ := ds'.derives.exists_statement
    have htail := List.append_cancel_left h
    rw [hx, hy] at htail
    obtain ⟨hgap, hmore⟩ := gap.2.unique gap'.2 hstart hstart' htail
    obtain rfl := Subtype.ext hgap
    rw [eq_of_statements ds ds' (hx.trans (hmore.trans hy.symm)) hreads
      fun t ht => hdo t (by simp [yield, ht])]

theorem eq_of_program : (d d' : Derivation .program) → d.yield = d'.yield → d.read = d'.read →
    (∀ t ∈ d.yield, t.terminal ≠ .word .doWord) → d = d'
  | .noStatements _, .noStatements _, h, _, _ => congrArg noStatements (Subtype.ext h)
  | .noStatements _, .someStatements _ ds', _, hr, _ =>
    absurd (Phrase.statements.inj hr).symm ds'.statements_ne_nil
  | .someStatements _ ds, .noStatements _, _, hr, _ =>
    absurd (Phrase.statements.inj hr) ds.statements_ne_nil
  | .someStatements gap ds, .someStatements gap' ds', h, hr, hdo => by
    obtain ⟨x, more, hx, hstart⟩ := ds.derives.exists_statement
    obtain ⟨y, more', hy, hstart'⟩ := ds'.derives.exists_statement
    simp only [yield] at h
    rw [hx, hy] at h
    obtain ⟨hgap, hmore⟩ := gap.2.unique gap'.2 hstart hstart' h
    rw [Subtype.ext hgap, eq_of_statements ds ds' (hx.trans (hmore.trans hy.symm))
      (Phrase.statements.inj hr) fun t ht => hdo t (by simp [yield, ht])]

end Derivation

variable {ts : List Token}

/--
Tokens without a `do` have one derivation at most. So however a parser chooses between derivations,
the tree of code without blocks is the same.
-/
theorem derivation_unique [CharacterNames] (hdo : ∀ t ∈ ts, t.terminal ≠ .word .doWord) :
    (∀ d d' : Derivation .program, d.yield = ts → d'.yield = ts → d = d') ∧
      ∀ code line, (Lexed.ofCode code line).tokens = ts → (Lexed.ofCode code line).rejected = none →
        ∀ d : Derivation .program, d.yield = ts →
          parse code line = d.read.toTree.mapError fun fault => ⟨.literal fault, line⟩ := by
  have hphrase : ∀ ps qs, Derives .program ts ps → Derives .program ts qs → ps = qs :=
    fun _ _ h h' => h.program_unique h' hdo
  constructor
  · rintro d d' rfl h
    have hread := hphrase _ _ d.derives (h ▸ d'.derives)
    exact d.eq_of_program d' h.symm (List.singleton_inj.1 hread) hdo
  · rintro code line rfl hr d h
    have hd := h ▸ d.derives
    obtain ⟨p, hp, hparse⟩ := parse_of_derives hr ⟨_, hd⟩
    rw [hparse, List.singleton_inj.1 (hphrase _ _ hp hd)]

theorem derivation_unique_minus : ∃ d : Derivation .program,
    d.yield = (Lexed.ofCode "a - -b" 1).tokens ∧
      (∀ d' : Derivation .program, d'.yield = (Lexed.ofCode "a - -b" 1).tokens → d' = d) ∧
      parse "a - -b" 1 = d.read.toTree.mapError fun fault => ⟨.literal fault, 1⟩ := by
  let name (text : String) : Token := ⟨.name, text, 1⟩
  let minus : Token := ⟨.sign .minus, "-", 1⟩
  have hts : (Lexed.ofCode "a - -b" 1).tokens = [name "a"] ++ minus :: (minus :: [name "b"]) := by
    decide
  have hname (text : String) : Derives .primary [name text] [.name (name text)] := .name rfl
  have hnegated : Derives (.tier unaryTier) (minus :: [name "b"])
      [.unary minus (.name (name "b"))] :=
    .unary rfl ((hname "b").tier_of_primary (Nat.le_refl _))
  have hsub : Derives (.tier 9) ([name "a"] ++ minus :: (minus :: [name "b"]))
      [.binary (.name (name "a")) minus (.unary minus (.name (name "b")))] :=
    .binary ((hname "a").tier_of_primary (by decide)) rfl
      (hnegated.tier_le (by decide) (by decide))
  have hd := (hsub.tier_le (Nat.zero_le _) (by decide)).program_of_tier
  rw [← hts] at hd
  obtain ⟨d, hyield, -⟩ := hd.exists_derivation
  have hdo : ∀ t ∈ (Lexed.ofCode "a - -b" 1).tokens, t.terminal ≠ .word .doWord := by decide
  obtain ⟨hunique, hparse⟩ := derivation_unique hdo
  exact ⟨d, hyield, fun d' h' => hunique d' d h' hyield, hparse _ _ rfl (by decide) d hyield⟩

end EmbeddedTemplate.Code
