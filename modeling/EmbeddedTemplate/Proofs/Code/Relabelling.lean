import EmbeddedTemplate.Code.Chart

/-!
The reader looks at the classes of tokens only. Tokens with other texts or lines are read as the
same phrases, of the other tokens.
-/

namespace EmbeddedTemplate.Code

namespace Parses

variable {α β γ : Type} {f : α → β} {g : β → γ} {p q : Parses α} {left : Nat}

@[simp] theorem map_fail (f : α → β) (left : Nat) : (fail left).map f = fail left := rfl

@[simp] theorem map_done (f : α → β) (left : Nat) (a : α) : (done left a).map f = done left (f a) :=
  rfl

@[simp] theorem map_map : (p.map f).map g = p.map (g ∘ f) := by
  simp [map, Function.comp_def]

@[simp] theorem map_orElse : (p.orElse q).map f = (p.map f).orElse (q.map f) := by
  simp [map, orElse, List.filter_map, List.all_map, Function.comp_def]

@[simp] theorem map_andThen (next : Nat → α → Parses β) :
    (p.andThen next).map g = p.andThen fun left a => (next left a).map g := by
  obtain ⟨results, reach⟩ := p
  induction results with
  | nil => rfl
  | cons r results ih =>
    simp only [andThen, List.foldr_cons, map_orElse] at ih ⊢
    rw [ih]

@[simp] theorem andThen_map (next : Nat → β → Parses γ) :
    (p.map f).andThen next = p.andThen fun left a => next left (f a) := by
  simp [andThen, map, List.foldr_map]

theorem complete?_map : (p.map f).complete? = p.complete?.map f := by
  simp [complete?, map, List.find?_map, Function.comp_def]

end Parses

structure Relabelling where
  apply : Token → Token
  terminal : ∀ t, (apply t).terminal = t.terminal

attribute [simp] Relabelling.terminal

instance : CoeFun Relabelling fun _ => Token → Token := ⟨Relabelling.apply⟩

variable (r : Relabelling)

namespace Phrase

mutual

@[simp] def relabel : Phrase → Phrase
  | .literal t => .literal (r t)
  | .name t => .name (r t)
  | .modulePath t => .modulePath (r t)
  | .assign t u => .assign (r t) (r u)
  | .call t ps => .call (r t) (relabelAll ps)
  | .block t ps qs => .block (r t) (relabelAll ps) (relabelAll qs)
  | .parens t p => .parens (r t) p.relabel
  | .list t ps => .list (r t) (relabelAll ps)
  | .tuple t ps => .tuple (r t) (relabelAll ps)
  | .unary t p => .unary (r t) p.relabel
  | .binary p t q => .binary p.relabel (r t) q.relabel
  | .remoteCall p t ps => .remoteCall p.relabel (r t) (relabelAll ps)
  | .field p t => .field p.relabel (r t)
  | .access p q => .access p.relabel q.relabel
  | .keyword t p => .keyword (r t) p.relabel
  | .statements ps => .statements (relabelAll ps)
  | .clauses ps => .clauses (relabelAll ps)
  | .clause ps p => .clause (relabelAll ps) p.relabel
  | .part t p => .part (r t) p.relabel

@[simp] def relabelAll : List Phrase → List Phrase
  | [] => []
  | p :: ps => p.relabel :: relabelAll ps

end

@[simp] theorem relabelAll_eq_map (ps : List Phrase) : relabelAll r ps = ps.map (relabel r) := by
  induction ps with
  | nil => rfl
  | cons p ps ih => rw [relabelAll, ih, List.map_cons]

end Phrase

namespace Chain

@[simp] def relabel : Chain → Chain
  | .last p => .last (p.relabel r)
  | .link p t rest => .link (p.relabel r) (r t) rest.relabel

theorem toRight_relabel (c : Chain) : (c.relabel r).toRight = c.toRight.relabel r := by
  induction c with
  | last p => rfl
  | link p op rest ih => simp [toRight, ih]

theorem toLeftFrom_relabel (left : Phrase) (op : Token) (c : Chain) :
    toLeftFrom (left.relabel r) (r op) (c.relabel r) = (toLeftFrom left op c).relabel r := by
  induction c generalizing left op with
  | last p => rfl
  | link p op' rest ih => exact ih (.binary left op p) op'

theorem toLeft_relabel (c : Chain) : (c.relabel r).toLeft = c.toLeft.relabel r := by
  cases c with
  | last p => rfl
  | link p op rest => exact toLeftFrom_relabel r p op rest

theorem toPhrase_relabel (tier : Nat) (c : Chain) :
    toPhrase tier (c.relabel r) = (toPhrase tier c).relabel r := by
  unfold toPhrase
  cases assoc tier with
  | left => exact toLeft_relabel r c
  | right | single => exact toRight_relabel r c

end Chain

namespace Trailer

@[simp] def relabel : Trailer → Trailer
  | .call t ps => .call (r t) (ps.map (Phrase.relabel r))
  | .field t => .field (r t)
  | .access p => .access (p.relabel r)

theorem attach_relabel (target : Phrase) (t : Trailer) :
    (t.relabel r).attach (target.relabel r) = (t.attach target).relabel r := by
  cases t <;> simp [attach]

theorem foldl_attach_relabel (ts : List Trailer) (p : Phrase) :
    (ts.map (relabel r)).foldl attach (p.relabel r) = (ts.foldl attach p).relabel r := by
  induction ts generalizing p with
  | nil => rfl
  | cons t ts ih => rw [List.map_cons, List.foldl_cons, attach_relabel, ih, List.foldl_cons]

end Trailer

def relabelPair (x : Phrase × List Phrase) : Phrase × List Phrase :=
  (x.1.relabel r, x.2.map (Phrase.relabel r))

def Row.relabel (row : Row) : Row where
  head := row.head.map r
  tiers := row.tiers.map (Parses.map (Phrase.relabel r))
  chains := row.chains.map (Parses.map (Chain.relabel r))
  trailers := row.trailers.map (List.map (Trailer.relabel r))
  entries := row.entries.map (List.map (Phrase.relabel r))
  moreEntries := row.moreEntries.map (List.map (Phrase.relabel r))
  statements := row.statements.map (List.map (Phrase.relabel r))
  moreStatements := row.moreStatements.map (List.map (Phrase.relabel r))
  morePatterns := row.morePatterns.map (List.map (Phrase.relabel r))
  clauses := row.clauses.map (List.map (Phrase.relabel r))
  clauseBody := row.clauseBody.map (relabelPair r)
  sections := row.sections.map (relabelPair r)
  program := row.program.map (Phrase.relabel r)

namespace Chart

def relabel (chart : Chart) : Chart := Array.map (Row.relabel r) chart

variable {r} {chart : Chart} {left : Nat} {head : Option Token}

@[simp] theorem row_relabel : (chart.relabel r).row left = (chart.row left).relabel r := by
  rw [row, row, relabel, Array.getElem?_map]
  cases chart[left]? <;> rfl

@[simp] theorem tier_relabel (k : Nat) :
    (chart.relabel r).tier k left = (chart.tier k left).map (Phrase.relabel r) := by
  simp only [tier, row_relabel, Row.relabel, List.getElem?_map]
  cases (chart.row left).tiers[k]? <;> rfl

@[simp] theorem chain_relabel (k : Nat) :
    (chart.relabel r).chain k left = (chart.chain k left).map (Chain.relabel r) := by
  simp only [chain, row_relabel, Row.relabel, List.getElem?_map]
  cases (chart.row left).chains[k]? <;> rfl

@[simp] theorem expression_relabel :
    (chart.relabel r).expression left = (chart.expression left).map (Phrase.relabel r) :=
  tier_relabel 0

@[simp] theorem tokenIf_relabel (test : Terminal → Bool) (head : Option Token) :
    tokenIf test (head.map r) left = (tokenIf test head left).map r := by
  cases head with
  | none => rfl
  | some t =>
    simp only [tokenIf, Option.map_some, Relabelling.terminal]
    split <;> rfl

@[simp] theorem token_relabel (test : Terminal → Bool) :
    (chart.relabel r).token test left = (chart.token test left).map r := by
  rw [token, row_relabel]
  exact tokenIf_relabel test _

@[simp] theorem sign_relabel (s : Sign) :
    (chart.relabel r).sign s left = (chart.sign s left).map r := token_relabel _

@[simp] theorem word_relabel (w : Word) :
    (chart.relabel r).word w left = (chart.word w left).map r := token_relabel _

@[simp] theorem enclosed_relabel (closing : Sign) : (chart.relabel r).enclosed closing left =
    (chart.enclosed closing left).map (List.map (Phrase.relabel r)) := by
  simp [enclosed, Row.relabel, Function.comp_def]

@[simp] theorem doBlock_relabel :
    (chart.relabel r).doBlock left = (chart.doBlock left).map (List.map (Phrase.relabel r)) := by
  simp [doBlock, Row.relabel, Function.comp_def, relabelPair]

@[simp] theorem arguments_relabel : (chart.relabel r).arguments left =
    (chart.arguments left).map (List.map (Phrase.relabel r)) := by
  simp [arguments]

@[simp] theorem named_relabel (t : Token) :
    (chart.relabel r).named left (r t) = (chart.named left t).map (Phrase.relabel r) := by
  simp [named, Row.relabel, Function.comp_def]

@[simp] theorem primary_relabel (t : Token) :
    (chart.relabel r).primary left (r t) = (chart.primary left t).map (Phrase.relabel r) := by
  unfold primary
  rw [Relabelling.terminal]
  split
  case h_7 =>
    split <;> rfl
  all_goals simp [Function.comp_def]

@[simp] theorem trailers_relabel (head : Option Token) :
    (chart.relabel r).trailers left (head.map r) =
      (chart.trailers left head).map (List.map (Trailer.relabel r)) := by
  simp [trailers, Row.relabel, Function.comp_def]

@[simp] theorem chainFrom_relabel (k : Nat) (tighter : Parses Phrase) :
    (chart.relabel r).chainFrom k (tighter.map (Phrase.relabel r)) =
      (chart.chainFrom k tighter).map (Chain.relabel r) := by
  unfold chainFrom
  cases assoc k <;> simp [Function.comp_def]

theorem headD_map_fail {α β : Type} (f : α → β) (ps : List (Parses α)) (left : Nat) :
    (ps.map (Parses.map f)).headD (.fail left) = (ps.headD (.fail left)).map f := by
  cases ps <;> rfl

theorem ladder_relabel (unary : Parses Phrase) (tiers : Nat) :
    (chart.relabel r).ladder (unary.map (Phrase.relabel r)) tiers =
      ((chart.ladder unary tiers).1.map (Parses.map (Chain.relabel r)),
        (chart.ladder unary tiers).2.map (Parses.map (Phrase.relabel r))) := by
  induction tiers with
  | zero => rfl
  | succ n ih =>
    simp only [ladder, ih, headD_map_fail, chainFrom_relabel, List.map_cons, Parses.map_map,
      Function.comp_def, Chain.toPhrase_relabel]

@[simp] theorem finish_relabel (head : Option Token) (body : Phrase) :
    (chart.relabel r).finish left (head.map r) (body.relabel r) =
      (chart.finish left head body).map (relabelPair r) := by
  simp [finish, Row.relabel, Function.comp_def, relabelPair]

theorem separated_relabel {α : Type} {f : α → α} (more : Row → Parses α) (head : Option Token)
    (h : ∀ row : Row, more (row.relabel r) = (more row).map f) :
    (chart.relabel r).separated left (head.map r) more =
      (chart.separated left head more).map f := by
  simp [separated, h]

section

variable (more : Row → Parses (List Phrase)) (item : Parses Phrase)
variable (h : ∀ row : Row, more (row.relabel r) = (more row).map (List.map (Phrase.relabel r)))

include h

theorem several_relabel : (chart.relabel r).several (item.map (Phrase.relabel r)) more =
    (chart.several item more).map (List.map (Phrase.relabel r)) := by
  simp [several, h, Function.comp_def]

theorem commaList_relabel : (chart.relabel r).commaList (item.map (Phrase.relabel r)) more =
    (chart.commaList item more).map (List.map (Phrase.relabel r)) := by
  simp [commaList, several_relabel more item h, Function.comp_def]

theorem afterComma_relabel : (chart.relabel r).afterComma (item.map (Phrase.relabel r)) more =
    (chart.afterComma item more).map (List.map (Phrase.relabel r)) := by
  simp [afterComma, several_relabel more item h, Function.comp_def]

end

@[simp] theorem operand_relabel (head : Option Token) :
    (chart.relabel r).operand left (head.map r) =
      (chart.operand left head).map (Phrase.relabel r) := by
  cases head with
  | none => rfl
  | some t => simp [operand, Row.relabel, Function.comp_def, Trailer.foldl_attach_relabel]

@[simp] theorem unary_relabel (head : Option Token) :
    (chart.relabel r).unary left (head.map r) =
      (chart.unary left head).map (Phrase.relabel r) := by
  simp [unary, Function.comp_def]

@[simp] theorem entry_relabel (head : Option Token) (expression : Parses Phrase) :
    (chart.relabel r).entry left (head.map r) (expression.map (Phrase.relabel r)) =
      (chart.entry left head expression).map (Phrase.relabel r) := by
  simp [entry, Function.comp_def]

@[simp] theorem statementsFrom_relabel (expression : Parses Phrase) :
    (chart.relabel r).statementsFrom (expression.map (Phrase.relabel r)) =
      (chart.statementsFrom expression).map (List.map (Phrase.relabel r)) := by
  simp [statementsFrom, Row.relabel, Function.comp_def]

@[simp] theorem clausesFrom_relabel (patterns : Parses (List Phrase)) :
    (chart.relabel r).clausesFrom (patterns.map (List.map (Phrase.relabel r))) =
      (chart.clausesFrom patterns).map (List.map (Phrase.relabel r)) := by
  simp [clausesFrom, Row.relabel, Function.comp_def, relabelPair]

variable (statements clauses : Parses (List Phrase))

@[simp] theorem clauseBodyFrom_relabel (head : Option Token) :
    (chart.relabel r).clauseBodyFrom left (head.map r)
        (statements.map (List.map (Phrase.relabel r))) (clauses.map (List.map (Phrase.relabel r))) =
      (chart.clauseBodyFrom left head statements clauses).map (relabelPair r) := by
  simp only [clauseBodyFrom]
  rw [separated_relabel (f := relabelPair r) Row.clauseBody head fun _ => rfl]
  simp [Row.relabel, Function.comp_def, relabelPair]

@[simp] theorem sectionsFrom_relabel (head : Option Token) :
    (chart.relabel r).sectionsFrom left (head.map r)
        (statements.map (List.map (Phrase.relabel r))) (clauses.map (List.map (Phrase.relabel r))) =
      (chart.sectionsFrom left head statements clauses).map (relabelPair r) := by
  have hbody : ((statements.map (List.map (Phrase.relabel r))).map Phrase.statements).orElse
        ((clauses.map (List.map (Phrase.relabel r))).map Phrase.clauses) =
      ((statements.map Phrase.statements).orElse (clauses.map Phrase.clauses)).map
        (Phrase.relabel r) := by
    simp [Function.comp_def]
  have hnone : (chart.relabel r).finish left (head.map r) (.statements []) =
      (chart.finish left head (.statements [])).map (relabelPair r) :=
    finish_relabel head (.statements [])
  simp only [sectionsFrom]
  rw [separated_relabel (f := relabelPair r) Row.sections head fun _ => rfl, hbody, hnone,
    Parses.andThen_map]
  simp only [row_relabel, Row.relabel, finish_relabel, Parses.map_orElse, Parses.map_andThen]

theorem before_relabel (head : Option Token) :
    (chart.relabel r).before (head.map r) = (chart.before head).relabel r := by
  have hsize : (chart.relabel r).size = chart.size := Array.size_map ..
  have hmore (row : Row) :
      (row.relabel r).statements.orElse (row.relabel r).moreStatements =
        (row.statements.orElse row.moreStatements).map (List.map (Phrase.relabel r)) :=
    Parses.map_orElse.symm
  simp only [before, hsize, unary_relabel, ladder_relabel]
  rcases chart.ladder (chart.unary chart.size head) unaryTier with ⟨chains, tiers⟩
  simp only [Row.relabel, headD_map_fail, statementsFrom_relabel, entry_relabel, trailers_relabel,
    commaList_relabel Row.moreEntries _ fun _ => rfl,
    commaList_relabel Row.morePatterns _ fun _ => rfl,
    afterComma_relabel Row.moreEntries _ fun _ => rfl,
    afterComma_relabel Row.morePatterns _ fun _ => rfl,
    clausesFrom_relabel, clauseBodyFrom_relabel, sectionsFrom_relabel,
    separated_relabel (f := Phrase.relabel r) Row.program head fun _ => rfl,
    separated_relabel (fun row => row.statements.orElse row.moreStatements) head hmore,
    Parses.map_orElse, Parses.map_map, Parses.map_done, List.map_nil, Function.comp_def,
    Phrase.relabel, Phrase.relabelAll_eq_map]

theorem ofTokens_relabel (ts : List Token) : ofTokens (ts.map r) = (ofTokens ts).relabel r := by
  induction ts with
  | nil =>
    have h : (relabel r #[]).before (Option.map r none) = (before #[] none).relabel r :=
      before_relabel none
    rw [relabel, Array.map_empty, Option.map_none] at h
    rw [List.map_nil, ofTokens, relabel, List.map_toArray, List.map_singleton, ← h]
  | cons t ts ih =>
    have h : (relabel r (ofTokens ts)).before (some (r t)) = _ := before_relabel (some t)
    rw [List.map_cons, ofTokens, ofTokens, ih, h]
    exact Array.map_push.symm

end Chart

theorem Phrase.ofTokens_relabel (ts : List Token) :
    Phrase.ofTokens (ts.map r) = (Phrase.ofTokens ts).map (Phrase.relabel r) := by
  unfold Phrase.ofTokens
  simp only [Chart.ofTokens_relabel, Chart.row_relabel, Row.relabel, List.length_map,
    Parses.complete?_map]
  cases ((Chart.ofTokens ts).row ts.length).program.complete? <;> rfl

end EmbeddedTemplate.Code
