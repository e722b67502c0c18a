import EmbeddedTemplate.Proofs.Code.Nesting

/-!
Code without blocks has one reading. It can be read from the left, with a look at the next token to
tell how to go on; every derivation is such a reading, and there is only one.
-/

namespace EmbeddedTemplate.Code

inductive Task
  | tier (k : Nat)
  | chain (k : Nat) (p : Phrase)
  | primary
  | trailers (p : Phrase)
  | entry
  | entries
  | arguments
deriving Repr

def Ahead (avoided : Terminal → Prop) (ts : List Token) : Prop :=
  ∀ t ∈ ts.head?, ¬avoided t.terminal

/-- From the left, the tokens are read for the task as the phrases, and the last tokens are left. -/
inductive Takes : Task → List Token → List Phrase → List Token → Prop
  | tier {k ts p us ps vs} : k < unaryTier → Takes (.tier (k + 1)) ts [p] us →
      Takes (.chain k p) us ps vs → Takes (.tier k) ts ps vs
  | unary {op ts p us} : op.terminal.isUnary → Takes (.tier unaryTier) ts [p] us →
      Takes (.tier unaryTier) (op :: ts) [.unary op p] us
  | operand {ts p us ps vs} : Takes .primary ts [p] us → Takes (.trailers p) us ps vs →
      Takes (.tier unaryTier) ts ps vs
  | noOperator {k p ts} : Ahead (·.tier? = some k) ts → Takes (.chain k p) ts [p] ts
  | leftOperator {k p op ts q us ps vs} : assoc k = .left → op.terminal.tier? = some k →
      Takes (.tier (k + 1)) ts [q] us → Takes (.chain k (.binary p op q)) us ps vs →
      Takes (.chain k p) (op :: ts) ps vs
  | operator {k p op ts q us} : assoc k ≠ .left → op.terminal.tier? = some k →
      Takes (.tier ((assoc k).tiers k).2) ts [q] us →
      Takes (.chain k p) (op :: ts) [.binary p op q] us
  | literal {t ts} : t.terminal.isLiteral → Takes .primary (t :: ts) [.literal t] ts
  | name {t ts} : t.terminal = .name → Ahead (· = .sign .leftParen) ts →
      Takes .primary (t :: ts) [.name t] ts
  | modulePath {t ts} : t.terminal = .modulePath → Takes .primary (t :: ts) [.modulePath t] ts
  | assign {atSign name ts} : atSign.terminal = .sign .atSign → name.terminal = .name →
      Takes .primary (atSign :: name :: ts) [.assign atSign name] ts
  | call {name opening ts args closing us} : name.terminal = .name →
      opening.terminal = .sign .leftParen → Takes .arguments ts args (closing :: us) →
      closing.terminal = .sign .rightParen →
      Takes .primary (name :: opening :: ts) [.call name args] us
  | parens {opening ts p closing us} : opening.terminal = .sign .leftParen →
      Takes (.tier 0) ts [p] (closing :: us) → closing.terminal = .sign .rightParen →
      Takes .primary (opening :: ts) [.parens opening p] us
  | list {opening ts items closing us} : opening.terminal = .sign .leftBracket →
      Takes .arguments ts items (closing :: us) → closing.terminal = .sign .rightBracket →
      Takes .primary (opening :: ts) [.list opening items] us
  | tuple {opening ts items closing us} : opening.terminal = .sign .leftBrace →
      Takes .arguments ts items (closing :: us) → closing.terminal = .sign .rightBrace →
      Takes .primary (opening :: ts) [.tuple opening items] us
  | noTrailer {p ts} : Ahead (fun x => x = .sign .dot ∨ x = .sign .leftBracket) ts →
      Takes (.trailers p) ts [p] ts
  | remoteCall {p dot name opening ts args closing us ps vs} : dot.terminal = .sign .dot →
      name.terminal = .name → opening.terminal = .sign .leftParen →
      Takes .arguments ts args (closing :: us) → closing.terminal = .sign .rightParen →
      Takes (.trailers (.remoteCall p name args)) us ps vs →
      Takes (.trailers p) (dot :: name :: opening :: ts) ps vs
  | field {p dot name ts ps us} : dot.terminal = .sign .dot → name.terminal = .name →
      Ahead (· = .sign .leftParen) ts → Takes (.trailers (.field p name)) ts ps us →
      Takes (.trailers p) (dot :: name :: ts) ps us
  | access {p opening ts q closing us ps vs} : opening.terminal = .sign .leftBracket →
      Takes (.tier 0) ts [q] (closing :: us) → closing.terminal = .sign .rightBracket →
      Takes (.trailers (.access p q)) us ps vs → Takes (.trailers p) (opening :: ts) ps vs
  | expression {ts ps us} : Ahead (· = .key) ts → Takes (.tier 0) ts ps us →
      Takes .entry ts ps us
  | keyword {key ts p us} : key.terminal = .key → Takes (.tier 0) ts [p] us →
      Takes .entry (key :: ts) [.keyword key p] us
  | lastEntry {ts ps us} : Takes .entry ts ps us → Ahead (· = .sign .comma) us →
      Takes .entries ts ps us
  | moreEntries {ts p comma us ps vs} : Takes .entry ts [p] (comma :: us) →
      comma.terminal = .sign .comma → Takes .entries us ps vs → Takes .entries ts (p :: ps) vs
  | noArguments {closing ts} : closing.terminal.closes →
      Takes .arguments (closing :: ts) [] (closing :: ts)
  | someArguments {ts ps us} : Ahead (·.closes) ts → Takes .entries ts ps us →
      Takes .arguments ts ps us

variable {task : Task} {ts us us' : List Token} {ps ps' : List Phrase} {t : Token}

theorem Ahead.head {avoided : Terminal → Prop} (h : Ahead avoided (t :: ts)) :
    ¬avoided t.terminal :=
  h t rfl

theorem Takes.not_isUnary (h : Takes .primary (t :: ts) ps us) : t.terminal.isUnary = false := by
  cases h with
  | literal ht =>
    unfold Terminal.isLiteral at ht
    split at ht <;> simp_all [Terminal.isUnary]
  | _ => simp_all [Terminal.isUnary]

theorem Takes.deterministic (h : Takes task ts ps us) (h' : Takes task ts ps' us') :
    ps = ps' ∧ us = us' := by
  -- Two rules for one task demand different classes of the next token, so both runs take one.
  induction h generalizing ps' us' with
  | tier hk _ _ ih₁ ih₂ =>
    cases h' with
    | tier _ g₁ g₂ =>
      obtain ⟨⟨rfl, -⟩, rfl⟩ := ih₁ g₁
      exact ih₂ g₂
    | unary | operand => exact absurd hk (Nat.lt_irrefl _)
  | unary hop _ ih =>
    cases h' with
    | tier hk => exact absurd hk (Nat.lt_irrefl _)
    | unary _ g =>
      obtain ⟨⟨rfl, -⟩, rfl⟩ := ih g
      exact ⟨rfl, rfl⟩
    | operand g => simp_all [g.not_isUnary]
  | operand h₁ _ ih₁ ih₂ =>
    cases h' with
    | tier hk => exact absurd hk (Nat.lt_irrefl _)
    | unary hop => simp_all [h₁.not_isUnary]
    | operand g₁ g₂ =>
      obtain ⟨⟨rfl, -⟩, rfl⟩ := ih₁ g₁
      exact ih₂ g₂
  | noOperator ha =>
    cases h' with
    | noOperator => exact ⟨rfl, rfl⟩
    | leftOperator _ hop | operator _ hop => exact absurd hop ha.head
  | leftOperator hk hop _ _ ih₁ ih₂ =>
    cases h' with
    | noOperator ha => exact absurd hop ha.head
    | leftOperator _ _ g₁ g₂ =>
      obtain ⟨⟨rfl, -⟩, rfl⟩ := ih₁ g₁
      exact ih₂ g₂
    | operator hk' => exact absurd hk hk'
  | operator hk hop _ ih =>
    cases h' with
    | noOperator ha => exact absurd hop ha.head
    | leftOperator hk' => exact absurd hk' hk
    | operator _ _ g =>
      obtain ⟨⟨rfl, -⟩, rfl⟩ := ih g
      exact ⟨rfl, rfl⟩
  | literal ht => cases h' <;> simp_all [Terminal.isLiteral]
  | name ht ha =>
    cases h' with
    | name => exact ⟨rfl, rfl⟩
    | call _ ho => exact absurd ho ha.head
    | _ => simp_all [Terminal.isLiteral]
  | modulePath ht => cases h' <;> simp_all [Terminal.isLiteral]
  | assign hs hn => cases h' <;> simp_all [Terminal.isLiteral]
  | call hn ho _ _ ih =>
    cases h' with
    | name _ ha => exact absurd ho ha.head
    | call _ _ g =>
      obtain ⟨rfl, ⟨⟩⟩ := ih g
      exact ⟨rfl, rfl⟩
    | _ => simp_all [Terminal.isLiteral]
  | parens ho _ _ ih =>
    cases h' with
    | parens _ g =>
      obtain ⟨⟨rfl, -⟩, ⟨⟩⟩ := ih g
      exact ⟨rfl, rfl⟩
    | _ => simp_all [Terminal.isLiteral]
  | list ho _ _ ih =>
    cases h' with
    | list _ g =>
      obtain ⟨rfl, ⟨⟩⟩ := ih g
      exact ⟨rfl, rfl⟩
    | _ => simp_all [Terminal.isLiteral]
  | tuple ho _ _ ih =>
    cases h' with
    | tuple _ g =>
      obtain ⟨rfl, ⟨⟩⟩ := ih g
      exact ⟨rfl, rfl⟩
    | _ => simp_all [Terminal.isLiteral]
  | noTrailer ha =>
    cases h' with
    | noTrailer => exact ⟨rfl, rfl⟩
    | remoteCall hd | field hd => exact absurd (.inl hd) ha.head
    | access hb => exact absurd (.inr hb) ha.head
  | remoteCall hd hn ho _ _ _ ih₁ ih₂ =>
    cases h' with
    | noTrailer ha => exact absurd (.inl hd) ha.head
    | remoteCall _ _ _ g₁ _ g₂ =>
      obtain ⟨rfl, ⟨⟩⟩ := ih₁ g₁
      exact ih₂ g₂
    | field _ _ ha => exact absurd ho ha.head
    | access hb => simp_all
  | field hd hn ha _ ih =>
    cases h' with
    | noTrailer ha => exact absurd (.inl hd) ha.head
    | remoteCall _ _ ho => exact absurd ho ha.head
    | field _ _ _ g => exact ih g
    | access hb => simp_all
  | access hb _ _ _ ih₁ ih₂ =>
    cases h' with
    | noTrailer ha => exact absurd (.inr hb) ha.head
    | remoteCall hd | field hd => simp_all
    | access _ g₁ _ g₂ =>
      obtain ⟨⟨rfl, -⟩, ⟨⟩⟩ := ih₁ g₁
      exact ih₂ g₂
  | expression ha _ ih =>
    cases h' with
    | expression _ g => exact ih g
    | keyword hk => exact absurd hk ha.head
  | keyword hk _ ih =>
    cases h' with
    | expression ha => exact absurd hk ha.head
    | keyword _ g =>
      obtain ⟨⟨rfl, -⟩, rfl⟩ := ih g
      exact ⟨rfl, rfl⟩
  | lastEntry _ ha ih =>
    cases h' with
    | lastEntry g => exact ih g
    | moreEntries g hc =>
      obtain ⟨-, rfl⟩ := ih g
      exact absurd hc ha.head
  | moreEntries _ hc _ ih₁ ih₂ =>
    cases h' with
    | lastEntry g ha =>
      obtain ⟨-, rfl⟩ := ih₁ g
      exact absurd hc ha.head
    | moreEntries g₁ _ g₂ =>
      obtain ⟨⟨rfl, -⟩, ⟨⟩⟩ := ih₁ g₁
      obtain ⟨rfl, rfl⟩ := ih₂ g₂
      exact ⟨rfl, rfl⟩
  | noArguments hc =>
    cases h' with
    | noArguments => exact ⟨rfl, rfl⟩
    | someArguments ha => exact absurd hc ha.head
  | someArguments ha _ ih =>
    cases h' with
    | noArguments hc => exact absurd hc ha.head
    | someArguments _ g => exact ih g

def Terminal.continues (k : Nat) (x : Terminal) : Prop :=
  x = .sign .dot ∨ x = .sign .leftBracket ∨ x = .sign .leftParen ∨ ∃ i, k ≤ i ∧ x.tier? = some i

/-- Operators from this tier on would go into a run of the tier that they stand behind. -/
def reach (k : Nat) : Nat := if assoc k = .left then k + 1 else k

theorem le_reach (k : Nat) : k ≤ reach k ∧ reach k ≤ k + 1 := by
  unfold reach
  split <;> omega

def Terminal.startsExpression (x : Terminal) : Bool :=
  x.isLiteral || x.isUnary || x ∈ [.name, .modulePath, .sign .atSign, .sign .leftParen,
    .sign .leftBracket, .sign .leftBrace]

def Category.isExpression : Category → Bool
  | .tier _ | .operand | .primary => true
  | _ => false

variable {k i : Nat} {p q : Phrase} {rest rest' : List Token}

theorem Ahead.mono {avoided avoided' : Terminal → Prop} (h : Ahead avoided ts)
    (ha : ∀ x, avoided' x → avoided x) : Ahead avoided' ts := fun t ht hx => h t ht (ha _ hx)

theorem ahead_cons {avoided : Terminal → Prop} (h : ¬avoided t.terminal) :
    Ahead avoided (t :: ts) := by
  rintro _ ⟨⟩
  exact h

theorem ahead_nil {avoided : Terminal → Prop} : Ahead avoided [] := nofun

theorem Ahead.leftParen (h : Ahead (Terminal.continues k) ts) :
    Ahead (· = .sign .leftParen) ts := h.mono fun _ hx => .inr (.inr (.inl hx))

theorem Ahead.noTrailer (h : Ahead (Terminal.continues k) ts) :
    Ahead (fun x => x = .sign .dot ∨ x = .sign .leftBracket) ts :=
  h.mono fun _ hx => hx.elim .inl fun hx => .inr (.inl hx)

theorem Ahead.noOperator (h : Ahead (Terminal.continues k) ts) (hi : k ≤ i) :
    Ahead (·.tier? = some i) ts := h.mono fun _ hx => .inr (.inr (.inr ⟨i, hi, hx⟩))

theorem Ahead.tighter (h : Ahead (Terminal.continues k) ts) (hi : k ≤ i) :
    Ahead (Terminal.continues i) ts := by
  refine h.mono fun x hx => ?_
  obtain hx | hx | hx | ⟨j, hj, hx⟩ := hx
  · exact .inl hx
  · exact .inr (.inl hx)
  · exact .inr (.inr (.inl hx))
  · exact .inr (.inr (.inr ⟨j, Nat.le_trans hi hj, hx⟩))

theorem ahead_operator {op : Token} (h : op.terminal.tier? = some i) (hk : i < k) :
    Ahead (Terminal.continues k) (op :: ts) := by
  refine ahead_cons ?_
  rintro (hx | hx | hx | ⟨j, hj, hx⟩)
  · simp [hx, Terminal.tier?] at h
  · simp [hx, Terminal.tier?] at h
  · simp [hx, Terminal.tier?] at h
  · rw [h] at hx
    cases hx
    omega

theorem Derives.exists_start {c : Category} (h : Derives c ts ps) (hc : c.isExpression) :
    ∃ t us, ts = t :: us ∧ t.terminal.startsExpression := by
  induction h with
  | tighter _ _ ih | operand _ ih | primary _ ih => exact ih rfl
  | binary _ _ _ ih | remoteCall _ _ _ _ _ _ ih | field _ _ _ ih | access _ _ _ _ ih =>
    obtain ⟨t, us, rfl, ht⟩ := ih rfl
    exact ⟨t, _, rfl, ht⟩
  | unary ht | literal ht | name ht | modulePath ht | assign ht | call ht | block ht | parens ht
  | list ht | tuple ht => exact ⟨_, _, rfl, by simp [Terminal.startsExpression, ht]⟩
  | _ => cases hc

theorem Terminal.closes_eq_false {x : Terminal} (h : x.startsExpression) : x.closes = false := by
  unfold closes
  split <;> first | rfl | cases h

theorem Derives.exists_entry {c : Category} (h : Derives c ts ps)
    (hc : c = .entry ∨ c = .entries) : ∃ t us, ts = t :: us ∧ t.terminal.closes = false := by
  induction h with
  | expression h =>
    obtain ⟨t, us, rfl, ht⟩ := h.exists_start rfl
    exact ⟨t, us, rfl, Terminal.closes_eq_false ht⟩
  | keyword hk => exact ⟨_, _, rfl, by simp [hk, Terminal.closes]⟩
  | lastEntry _ ih => exact ih (.inl rfl)
  | moreEntries _ _ _ ih =>
    obtain ⟨t, us, rfl, ht⟩ := ih (.inl rfl)
    exact ⟨t, _, rfl, ht⟩
  | _ => simp at hc

def Taken : Category → List Token → List Phrase → Prop
  | .tier k, ts, ps => ∃ p, ps = [p] ∧ ∀ rest, Ahead (Terminal.continues (reach k)) rest →
      ∀ qs us, Takes (.chain k p) rest qs us → Takes (.tier k) (ts ++ rest) qs us
  | .operand, ts, ps => ∃ p, ps = [p] ∧ ∀ rest, Ahead (· = .sign .leftParen) rest →
      ∀ qs us, Takes (.trailers p) rest qs us → Takes (.tier unaryTier) (ts ++ rest) qs us
  | .primary, ts, ps => ∃ p, ps = [p] ∧ ∀ rest, Ahead (· = .sign .leftParen) rest →
      Takes .primary (ts ++ rest) [p] rest
  | .entry, ts, ps => ∀ rest, Ahead (Terminal.continues 0) rest → Takes .entry (ts ++ rest) ps rest
  | .entries, ts, ps => ∀ rest, Ahead (Terminal.continues 0) rest → Ahead (· = .sign .comma) rest →
      Takes .entries (ts ++ rest) ps rest
  | .arguments, ts, ps => ∀ closing rest, closing.terminal.closes →
      Takes .arguments (ts ++ closing :: rest) ps (closing :: rest)
  | _, _, _ => True

theorem Taken.tier (h : Taken (.tier k) ts [p]) (ha : Ahead (Terminal.continues k) rest) :
    Takes (.tier k) (ts ++ rest) [p] rest := by
  obtain ⟨_, ⟨⟩, h⟩ := h
  exact h rest (ha.tighter (le_reach k).1) _ _ (.noOperator (ha.noOperator (Nat.le_refl _)))

theorem ahead_unaryTier : Ahead (·.tier? = some unaryTier) ts :=
  fun _ _ ht => absurd (Terminal.tier?_lt ht) (Nat.lt_irrefl _)

theorem Takes.chain_unaryTier (h : Takes (.chain unaryTier p) ts ps us) : ps = [p] ∧ us = ts := by
  obtain ⟨rfl, rfl⟩ := (Takes.noOperator ahead_unaryTier).deterministic h
  exact ⟨rfl, rfl⟩

theorem closes_continues {closing : Token} (h : closing.terminal.closes) :
    Ahead (Terminal.continues k) (closing :: ts) := by
  refine ahead_cons ?_
  unfold Terminal.closes at h
  split at h <;> simp_all [Terminal.continues, Terminal.tier?]

theorem Derives.taken {c : Category} (h : Derives c ts ps)
    (hdo : ∀ t ∈ ts, t.terminal ≠ .word .doWord) : Taken c ts ps := by
  -- `rest` and what comes of it stay open: an operand is read with the operators behind it.
  induction h with
  | @tighter k ts ps _ hk ih =>
    obtain ⟨p, rfl, hread⟩ := ih hdo
    refine ⟨p, rfl, fun rest ha qs us hchain => .tier hk ?_ hchain⟩
    have ha' := ha.tighter (le_reach k).2
    exact hread rest (ha'.tighter (le_reach (k + 1)).1) _ _
      (.noOperator (ha'.noOperator (Nat.le_refl _)))
  | @binary k left p op right q _ hop _ ihl ihr =>
    have hk := Terminal.tier?_lt hop
    have hl := ihl fun t ht => hdo t (by simp [ht])
    have hr := ihr fun t ht => hdo t (by simp [ht])
    refine ⟨_, rfl, fun rest ha qs us hchain => ?_⟩
    rw [List.append_assoc, List.cons_append]
    by_cases hassoc : assoc k = .left
    · rw [hassoc] at hl hr
      rw [reach, if_pos hassoc] at ha
      obtain ⟨_, ⟨⟩, hl⟩ := hl
      have hstop : Ahead (Terminal.continues (reach k)) (op :: (right ++ rest)) := by
        rw [reach, if_pos hassoc]
        exact ahead_operator hop (Nat.lt_succ_self k)
      exact hl _ hstop _ _ (.leftOperator hassoc hop (Taken.tier hr ha) hchain)
    · rw [reach, if_neg hassoc] at ha
      have htiers : ((assoc k).tiers k).1 = k + 1 ∧ k ≤ ((assoc k).tiers k).2 := by
        cases h : assoc k <;> simp_all [Assoc.tiers]
      rw [htiers.1] at hl
      have hstop : Ahead (Terminal.continues (k + 1)) (op :: (right ++ rest)) :=
        ahead_operator hop (Nat.lt_succ_self k)
      obtain ⟨rfl, rfl⟩ := (Takes.noOperator (ha.noOperator (Nat.le_refl _))).deterministic hchain
      exact .tier hk (Taken.tier hl hstop)
        (.operator hassoc hop (Taken.tier hr (ha.tighter htiers.2)))
  | @unary op ts p hop _ ih =>
    obtain ⟨_, ⟨⟩, hread⟩ := ih fun t ht => hdo t (by simp [ht])
    refine ⟨_, rfl, fun rest ha qs us hchain => ?_⟩
    obtain ⟨rfl, rfl⟩ := hchain.chain_unaryTier
    exact .unary hop (hread _ ha _ _ (.noOperator ahead_unaryTier))
  | operand _ ih =>
    obtain ⟨p, rfl, hread⟩ := ih hdo
    refine ⟨p, rfl, fun rest ha qs us hchain => ?_⟩
    obtain ⟨rfl, rfl⟩ := hchain.chain_unaryTier
    exact hread _ ha.leftParen _ _ (.noTrailer ha.noTrailer)
  | primary _ ih =>
    obtain ⟨p, rfl, hread⟩ := ih hdo
    exact ⟨p, rfl, fun rest ha qs us htrailers => .operand (hread rest ha) htrailers⟩
  | @remoteCall ts p dot name opening inner args closing _ hd hn ho _ hc ih ihargs =>
    obtain ⟨_, ⟨⟩, hread⟩ := ih fun t ht => hdo t (by simp [ht])
    have hargs := ihargs fun t ht => hdo t (by simp [ht])
    refine ⟨_, rfl, fun rest ha qs us htrailers => ?_⟩
    have hend := hargs closing rest (by simp [hc, Terminal.closes])
    have := hread _ (ahead_cons (by simp [hd])) _ _ (.remoteCall hd hn ho hend hc htrailers)
    simpa using this
  | @field ts p dot name _ hd hn ih =>
    obtain ⟨_, ⟨⟩, hread⟩ := ih fun t ht => hdo t (by simp [ht])
    refine ⟨_, rfl, fun rest ha qs us htrailers => ?_⟩
    have := hread _ (ahead_cons (by simp [hd])) _ _ (.field hd hn ha htrailers)
    simpa using this
  | @access ts p opening inner q closing _ ho _ hc ih ihkey =>
    obtain ⟨_, ⟨⟩, hread⟩ := ih fun t ht => hdo t (by simp [ht])
    have hkey := ihkey fun t ht => hdo t (by simp [ht])
    refine ⟨_, rfl, fun rest ha qs us htrailers => ?_⟩
    have hstop : Ahead (Terminal.continues 0) (closing :: rest) :=
      closes_continues (by simp [hc, Terminal.closes])
    have hend := Taken.tier hkey hstop
    have := hread _ (ahead_cons (by simp [ho])) _ _ (.access ho hend hc htrailers)
    simpa using this
  | literal ht => exact ⟨_, rfl, fun rest _ => .literal ht⟩
  | name ht => exact ⟨_, rfl, fun rest ha => .name ht ha⟩
  | modulePath ht => exact ⟨_, rfl, fun rest _ => .modulePath ht⟩
  | assign hs hn => exact ⟨_, rfl, fun rest _ => .assign hs hn⟩
  | @call name opening inner args closing hn ho _ hc ih =>
    have hargs := ih fun t ht => hdo t (by simp [ht])
    refine ⟨_, rfl, fun rest _ => ?_⟩
    have := Takes.call hn ho (hargs closing rest (by simp [hc, Terminal.closes])) hc
    simpa using this
  | @block name inner args opening ts body rest parts _ _ ho =>
    exact absurd ho (hdo opening (by simp))
  | @parens opening inner p closing ho _ hc ih =>
    have hread := ih fun t ht => hdo t (by simp [ht])
    refine ⟨_, rfl, fun rest _ => ?_⟩
    have hstop : Ahead (Terminal.continues 0) (closing :: rest) :=
      closes_continues (by simp [hc, Terminal.closes])
    simpa using Takes.parens ho (Taken.tier hread hstop) hc
  | @list opening inner items closing ho _ hc ih =>
    have hitems := ih fun t ht => hdo t (by simp [ht])
    refine ⟨_, rfl, fun rest _ => ?_⟩
    simpa using Takes.list ho (hitems closing rest (by simp [hc, Terminal.closes])) hc
  | @tuple opening inner items closing ho _ hc ih =>
    have hitems := ih fun t ht => hdo t (by simp [ht])
    refine ⟨_, rfl, fun rest _ => ?_⟩
    simpa using Takes.tuple ho (hitems closing rest (by simp [hc, Terminal.closes])) hc
  | @expression ts ps h ih =>
    intro rest ha
    obtain ⟨t, us, rfl, ht⟩ := h.exists_start rfl
    have hread := ih hdo
    obtain ⟨p, rfl⟩ : ∃ p, ps = [p] := ⟨_, hread.choose_spec.1⟩
    refine .expression (ahead_cons ?_) (Taken.tier hread ha)
    intro hkey
    simp [hkey, Terminal.startsExpression, Terminal.isLiteral, Terminal.isUnary] at ht
  | @keyword key ts p hk _ ih =>
    intro rest ha
    have hread := ih fun t ht => hdo t (by simp [ht])
    exact .keyword hk (Taken.tier hread ha)
  | lastEntry _ ih =>
    intro rest ha hc
    exact .lastEntry (ih hdo rest ha) hc
  | @moreEntries ts p comma rest ps _ hc _ ih ihrest =>
    intro more ha hcomma
    have hentry := ih fun t ht => hdo t (by simp [ht])
    have hrest := ihrest fun t ht => hdo t (by simp [ht])
    have hstop : Ahead (Terminal.continues 0) (comma :: (rest ++ more)) :=
      ahead_cons (by simp [hc, Terminal.continues, Terminal.tier?])
    simpa using Takes.moreEntries (hentry _ hstop) hc (hrest more ha hcomma)
  | noArguments => exact fun closing rest hc => .noArguments hc
  | @someArguments ts ps h ih =>
    intro closing rest hc
    have hcomma : Ahead (· = .sign .comma) (closing :: rest) := by
      refine ahead_cons fun hcomma => ?_
      simp [hcomma, Terminal.closes] at hc
    obtain ⟨t, us, rfl, ht⟩ := h.exists_entry (.inr rfl)
    exact .someArguments (ahead_cons (by simp [ht])) (ih hdo _ (closes_continues hc) hcomma)
  | _ => trivial

theorem Derives.expression_unique (h : Derives (.tier k) ts ps) (h' : Derives (.tier k) us ps')
    (heq : ts ++ rest = us ++ rest') (ha : Ahead (Terminal.continues k) rest)
    (ha' : Ahead (Terminal.continues k) rest') (hdo : ∀ t ∈ ts, t.terminal ≠ .word .doWord)
    (hdo' : ∀ t ∈ us, t.terminal ≠ .word .doWord) : ts = us ∧ ps = ps' ∧ rest = rest' := by
  have hp := h.taken hdo
  have hq := h'.taken hdo'
  obtain ⟨p, rfl, -⟩ := id hp
  obtain ⟨q, rfl, -⟩ := id hq
  have hread := hp.tier ha
  rw [heq] at hread
  obtain ⟨⟨⟩, rfl⟩ := hread.deterministic (hq.tier ha')
  exact ⟨List.append_cancel_right heq, rfl, rfl⟩

variable {gap gap' : List Token} {x y : Token}

theorem Separators.ahead (h : Separators gap) (ha : gap = [] → ts = []) :
    Ahead (Terminal.continues 0) (gap ++ ts) := by
  cases gap with
  | nil =>
    rw [ha rfl]
    exact ahead_nil
  | cons t gap =>
    have ht : t.terminal = .sign .semicolon := h t (List.mem_cons_self ..)
    exact ahead_cons (by simp [ht, Terminal.continues, Terminal.tier?])

theorem Separators.not_mem (h : Separators gap) (hx : x.terminal.startsExpression) : x ∉ gap := by
  intro hm
  rw [h x hm] at hx
  cases hx

theorem Separators.unique (h : Separators gap) (h' : Separators gap')
    (hx : x.terminal.startsExpression) (hy : y.terminal.startsExpression)
    (heq : gap ++ x :: ts = gap' ++ y :: us) : gap = gap' ∧ x :: ts = y :: us := by
  obtain ⟨more, rfl, hmore⟩ | ⟨more, rfl, hmore⟩ := List.append_eq_append_iff.1 heq
  · cases more with
    | nil => exact ⟨(List.append_nil _).symm, hmore⟩
    | cons t more =>
      cases hmore
      exact absurd (by simp) (h'.not_mem hx)
  · cases more with
    | nil => exact ⟨List.append_nil _, hmore.symm⟩
    | cons t more =>
      cases hmore
      exact absurd (by simp) (h.not_mem hy)

theorem Derives.exists_statement (h : Derives .statements ts ps) :
    ∃ t us, ts = t :: us ∧ t.terminal.startsExpression := by
  cases h with
  | lastStatement h | moreStatements h =>
    obtain ⟨t, us, rfl, ht⟩ := h.exists_start rfl
    exact ⟨t, _, rfl, ht⟩

theorem Derives.split_statements (h : Derives .statements ts ps) : ∃ run p gap rest qs,
    ts = run ++ (gap ++ rest) ∧ ps = p ++ qs ∧ Derives (.tier 0) run p ∧ Separators gap ∧
      (gap = [] → rest = []) ∧ (rest = [] ∧ qs = [] ∨ Derives .statements rest qs) := by
  cases h with
  | @lastStatement run ps gap h hgap =>
    exact ⟨run, ps, gap, [], [], by simp, by simp, h, hgap, fun _ => rfl, .inl ⟨rfl, rfl⟩⟩
  | @moreStatements run p gap rest ps h hgap hne hrest =>
    exact ⟨run, [p], gap, rest, ps, by simp, rfl, h, hgap, fun h => absurd h hne, .inr hrest⟩

theorem Derives.statements_unique (h : Derives .statements ts ps) (h' : Derives .statements ts ps')
    (hdo : ∀ t ∈ ts, t.terminal ≠ .word .doWord) : ps = ps' := by
  induction hn : ts.length using Nat.strongRecOn generalizing ts ps ps' with
  | ind n ih =>
    obtain ⟨run, p, gap, rest, qs, rfl, rfl, hrun, hgap, hempty, hrest⟩ := h.split_statements
    obtain ⟨run', p', gap', rest', qs', heq, rfl, hrun', hgap', hempty', hrest'⟩ :=
      h'.split_statements
    have hdo' : ∀ t ∈ run' ++ (gap' ++ rest'), t.terminal ≠ .word .doWord := heq ▸ hdo
    obtain ⟨rfl, rfl, hgaps⟩ := hrun.expression_unique hrun' heq (hgap.ahead hempty)
      (hgap'.ahead hempty') (fun t ht => hdo t (by simp [ht])) fun t ht => hdo' t (by simp [ht])
    congr 1
    obtain ⟨rfl, rfl⟩ | hrest := hrest
    · obtain ⟨rfl, rfl⟩ | hrest' := hrest'
      · rfl
      · obtain ⟨x, more, rfl, hx⟩ := hrest'.exists_statement
        have : x ∈ gap := by simp_all
        exact absurd this (hgap.not_mem hx)
    · obtain ⟨x, more, rfl, hx⟩ := hrest.exists_statement
      obtain ⟨rfl, rfl⟩ | hrest' := hrest'
      · have : x ∈ gap' := by
          rw [List.append_nil] at hgaps
          simp [← hgaps]
        exact absurd this (hgap'.not_mem hx)
      · obtain ⟨y, more', rfl, hy⟩ := hrest'.exists_statement
        obtain ⟨rfl, hmore⟩ := hgap.unique hgap' hx hy hgaps
        rw [← hmore] at hrest'
        obtain ⟨t, us, rfl, -⟩ := hrun.exists_start rfl
        refine ih _ ?_ hrest hrest' (fun t ht => hdo t (by simp_all)) rfl
        rw [← hn]
        simp
        omega

/-- Code without blocks has one reading. -/
theorem Derives.program_unique (h : Derives .program ts ps) (h' : Derives .program ts ps')
    (hdo : ∀ t ∈ ts, t.terminal ≠ .word .doWord) : ps = ps' := by
  cases h with
  | noStatements hgap =>
    cases h' with
    | noStatements => rfl
    | someStatements hgap' hs =>
      obtain ⟨x, more, rfl, hx⟩ := hs.exists_statement
      exact absurd (by simp) (hgap.not_mem hx)
  | @someStatements gap run ps hgap hs =>
    obtain ⟨x, more, rfl, hx⟩ := hs.exists_statement
    generalize heq : gap ++ x :: more = whole at h'
    cases h' with
    | noStatements hgap' =>
      subst heq
      exact absurd (by simp) (hgap'.not_mem hx)
    | someStatements hgap' hs' =>
      obtain ⟨y, more', rfl, hy⟩ := hs'.exists_statement
      obtain ⟨rfl, hmore⟩ := hgap.unique hgap' hx hy heq
      rw [← hmore] at hs'
      rw [hs.statements_unique hs' fun t ht => hdo t (by simp_all)]

end EmbeddedTemplate.Code
