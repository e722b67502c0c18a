import EmbeddedTemplate.Code.Chart
import EmbeddedTemplate.Code.Grammar

/-!
What a chart reads, the grammar derives. Each field of a row is given a meaning in terms of the
grammar; a row has the meanings that its fields should have if the rows of all later places have
them.
-/

namespace EmbeddedTemplate.Code

def Parses.Reads {α : Type} (P : List Token → α → Prop) (us : List Token) (p : Parses α) : Prop :=
  ∀ left a, (left, a) ∈ p.results → ∃ run rest, us = run ++ rest ∧ rest.length = left ∧ P run a

namespace Parses

variable {α β : Type} {P P' : List Token → α → Prop} {Q : List Token → β → Prop} {us : List Token}
variable {p q : Parses α}

theorem reads_fail (left : Nat) : (fail left : Parses α).Reads P us := by
  intro _ _ h
  cases h

theorem reads_default : (default : Parses α).Reads P us := reads_fail 0

theorem reads_done {a : α} (h : P [] a) : (done us.length a).Reads P us := by
  intro _ _ hr
  cases List.mem_singleton.1 hr
  exact ⟨[], us, rfl, rfl, h⟩

theorem Reads.mono (h : p.Reads P us) (hP : ∀ run a, P run a → P' run a) : p.Reads P' us := by
  intro left a hr
  obtain ⟨run, rest, hs, hl, hp⟩ := h left a hr
  exact ⟨run, rest, hs, hl, hP run a hp⟩

theorem Reads.map {f : α → β} (h : p.Reads P us) (hf : ∀ run a, P run a → Q run (f a)) :
    (p.map f).Reads Q us := by
  intro left b hr
  obtain ⟨a, ha, rfl⟩ := mem_results_map.1 hr
  obtain ⟨run, rest, hs, hl, hp⟩ := h left a ha
  exact ⟨run, rest, hs, hl, hf run a hp⟩

theorem Reads.orElse (hp : p.Reads P us) (hq : q.Reads P us) : (p.orElse q).Reads P us :=
  fun left a hr => (mem_or_of_mem_orElse hr).elim (hp left a) (hq left a)

theorem mem_of_mem_andThen {next : Nat → α → Parses β} {r : Nat × β}
    (h : r ∈ (p.andThen next).results) :
    ∃ s ∈ p.results, r ∈ (next s.1 s.2).results := by
  obtain ⟨results, reach⟩ := p
  simp only [andThen] at h
  induction results with
  | nil => cases h
  | cons s results ih =>
    obtain h | h := mem_or_of_mem_orElse h
    · exact ⟨s, List.mem_cons_self .., h⟩
    · obtain ⟨t, ht, h⟩ := ih h
      exact ⟨t, List.mem_cons_of_mem _ ht, h⟩

theorem Reads.andThen {next : Nat → α → Parses β} (h : p.Reads P us)
    (hn : ∀ run rest a, us = run ++ rest → P run a →
      (next rest.length a).Reads (fun run' => Q (run ++ run')) rest) :
    (p.andThen next).Reads Q us := by
  intro left b hr
  obtain ⟨⟨l, a⟩, ha, hb⟩ := mem_of_mem_andThen hr
  obtain ⟨run, rest, rfl, rfl, hp⟩ := h l a ha
  obtain ⟨run', rest', rfl, hl, hq⟩ := hn run rest a rfl hp left b hb
  exact ⟨run ++ run', rest', (List.append_assoc ..).symm, hl, hq⟩

end Parses

inductive Links (k : Nat) : List Token → Chain → Prop
  | last {ts p} : Derives (.tier (k + 1)) ts [p] → Links k ts (.last p)
  | link {ts p op rest chain} : Derives (.tier (k + 1)) ts [p] → op.terminal.tier? = some k →
      (assoc k = .single → ∃ q, chain = .last q) → Links k rest chain →
      Links k (ts ++ op :: rest) (.link p op chain)

/-- The trailers turn any operand in front of them into an operand. -/
def Attaches (ts : List Token) (trailers : List Trailer) : Prop :=
  ∀ us p, Derives .operand us [p] →
    Derives .operand (us ++ ts) [trailers.foldl Trailer.attach p]

def Continues (ts : List Token) (ps : List Phrase) : Prop :=
  ∃ gap rest, ts = gap ++ rest ∧ Separators gap ∧
    (rest = [] ∧ ps = [] ∨ gap ≠ [] ∧ Derives .statements rest ps)

def ClauseBody (ts : List Token) (b : Phrase × List Phrase) : Prop :=
  ∃ body rest, ts = body ++ rest ∧ Derives .program body [b.1] ∧
    (rest = [] ∧ b.2 = [] ∨ Derives .clauses rest b.2)

def Sections (ts : List Token) (b : Phrase × List Phrase) : Prop :=
  ∃ body rest, ts = body ++ rest ∧ Derives .body body [b.1] ∧ Derives .parts rest b.2

structure Row.Sound (us : List Token) (row : Row) : Prop where
  head : ∀ t ∈ row.head, us.head? = some t
  tiers : ∀ k (p : Parses Phrase), row.tiers[k]? = some p →
    p.Reads (fun ts p => Derives (.tier k) ts [p]) us
  chains : ∀ k (p : Parses Chain), row.chains[k]? = some p → p.Reads (Links k) us
  trailers : row.trailers.Reads Attaches us
  entries : row.entries.Reads (Derives .entries) us
  moreEntries : row.moreEntries.Reads (Derives .entries) us
  statements : row.statements.Reads (Derives .statements) us
  moreStatements : row.moreStatements.Reads Continues us
  morePatterns : row.morePatterns.Reads (Derives .patterns) us
  clauses : row.clauses.Reads (Derives .clauses) us
  clauseBody : row.clauseBody.Reads ClauseBody us
  sections : row.sections.Reads Sections us
  program : row.program.Reads (fun ts p => Derives .program ts [p]) us

theorem Row.sound_default (us : List Token) : (default : Row).Sound us where
  head := by rintro _ ⟨⟩
  tiers := by
    rintro k p h
    cases h
  chains := by
    rintro k p h
    cases h
  trailers := Parses.reads_default
  entries := Parses.reads_default
  moreEntries := Parses.reads_default
  statements := Parses.reads_default
  moreStatements := Parses.reads_default
  morePatterns := Parses.reads_default
  clauses := Parses.reads_default
  clauseBody := Parses.reads_default
  sections := Parses.reads_default
  program := Parses.reads_default

theorem Derives.tier_toLeftFrom {k : Nat} {ts us : List Token} {p : Phrase} {op : Token}
    {chain : Chain} (ha : assoc k = .left) (h : Links k us chain) (hp : Derives (.tier k) ts [p])
    (ho : op.terminal.tier? = some k) :
    Derives (.tier k) (ts ++ op :: us) [chain.toLeftFrom p op] := by
  induction h generalizing ts p op with
  | last hq => exact .binary (by rwa [ha]) ho (by rwa [ha])
  | @link us q op' rest chain hq ho' _ _ ih =>
    have : Derives (.tier k) (ts ++ op :: us) [.binary p op q] :=
      .binary (by rwa [ha]) ho (by rwa [ha])
    have := ih this ho'
    rwa [List.append_assoc] at this

theorem Links.derives {k : Nat} {ts : List Token} {chain : Chain} (hk : k < unaryTier)
    (h : Links k ts chain) : Derives (.tier k) ts [chain.toPhrase k] := by
  unfold Chain.toPhrase
  cases ha : assoc k with
  | left =>
    cases h with
    | last hp => exact .tighter hp hk
    | link hp ho _ hc => exact .tier_toLeftFrom ha hc (.tighter hp hk) ho
  | right =>
    induction h with
    | last hp => exact .tighter hp hk
    | link hp ho _ _ ih => exact .binary (by rwa [ha]) ho (by rw [ha]; exact ih)
  | single =>
    cases h with
    | last hp => exact .tighter hp hk
    | link hp ho hs hc =>
      obtain ⟨q, rfl⟩ := hs ha
      cases hc with
      | last hq => exact .binary (by rwa [ha]) ho (by rwa [ha])

theorem separators_nil : Separators [] := by
  simp [Separators]

theorem separators_cons {gap : Token} {ts : List Token} (h : gap.terminal = .sign .semicolon) :
    Separators (gap :: ts) ↔ Separators ts := by
  simp [Separators, h]

namespace Derives

variable {gap : Token} {ts : List Token} {p : Phrase}

theorem program_cons (h : Derives .program ts [p]) (hg : gap.terminal = .sign .semicolon) :
    Derives .program (gap :: ts) [p] := by
  cases h with
  | noStatements h => exact .noStatements ((separators_cons hg).2 h)
  | someStatements h hs =>
    rw [← List.cons_append]
    exact .someStatements ((separators_cons hg).2 h) hs

theorem body_cons (h : Derives .body ts [p]) (hg : gap.terminal = .sign .semicolon) :
    Derives .body (gap :: ts) [p] := by
  cases h with
  | statements h => exact .statements (h.program_cons hg)
  | clauses h hs =>
    rw [← List.cons_append]
    exact .clauses ((separators_cons hg).2 h) hs

end Derives

theorem attaches_nil : Attaches [] [] := by
  intro us p h
  simpa using h

theorem Attaches.cons {ts : List Token} {trailers : List Trailer} (run : List Token)
    (trailer : Trailer) (h : Attaches ts trailers)
    (ht : ∀ us p, Derives .operand us [p] → Derives .operand (us ++ run) [trailer.attach p]) :
    Attaches (run ++ ts) (trailer :: trailers) := by
  intro us p hp
  rw [← List.append_assoc]
  exact h _ _ (ht us p hp)

namespace Chart

def Sound (chart : Chart) (us : List Token) : Prop :=
  ∀ run rest, us = run ++ rest → (chart.row rest.length).Sound rest

variable {chart : Chart} {us run rest : List Token} {head : Option Token}

theorem Sound.row (hc : chart.Sound us) : (chart.row us.length).Sound us := hc [] us rfl

theorem Sound.suffix (hc : chart.Sound us) (h : us = run ++ rest) : chart.Sound rest := by
  rintro run' rest' rfl
  exact hc (run ++ run') rest' (by rw [h, List.append_assoc])

theorem reads_tokenIf {test : Terminal → Bool} (hh : ∀ t ∈ head, us.head? = some t) :
    (tokenIf test head us.length).Reads (fun ts t => ts = [t] ∧ test t.terminal) us := by
  unfold tokenIf
  split
  · next t =>
    split
    · next ht =>
      obtain ⟨rest, rfl⟩ := List.head?_eq_some_iff.1 (hh t rfl)
      intro left a h
      cases List.mem_singleton.1 h
      exact ⟨[t], rest, rfl, rfl, rfl, ht⟩
    · exact Parses.reads_fail _
  · exact Parses.reads_fail _

theorem reads_token {test : Terminal → Bool} (hc : chart.Sound us) :
    (chart.token test us.length).Reads (fun ts t => ts = [t] ∧ test t.terminal) us :=
  reads_tokenIf hc.row.head

theorem reads_sign {s : Sign} (hc : chart.Sound us) :
    (chart.sign s us.length).Reads (fun ts t => ts = [t] ∧ t.terminal = .sign s) us :=
  (reads_token hc).mono fun _ _ h => ⟨h.1, by simpa using h.2⟩

theorem reads_word {w : Word} (hc : chart.Sound us) :
    (chart.word w us.length).Reads (fun ts t => ts = [t] ∧ t.terminal = .word w) us :=
  (reads_token hc).mono fun _ _ h => ⟨h.1, by simpa using h.2⟩

theorem reads_tier {k : Nat} (hc : chart.Sound us) :
    (chart.tier k us.length).Reads (fun ts p => Derives (.tier k) ts [p]) us := by
  unfold tier
  cases h : (chart.row us.length).tiers[k]? with
  | none => exact Parses.reads_fail _
  | some p => exact hc.row.tiers k p h

theorem reads_chain {k : Nat} (hc : chart.Sound us) :
    (chart.chain k us.length).Reads (Links k) us := by
  unfold chain
  cases h : (chart.row us.length).chains[k]? with
  | none => exact Parses.reads_fail _
  | some p => exact hc.row.chains k p h

theorem reads_expression (hc : chart.Sound us) :
    (chart.expression us.length).Reads (fun ts p => Derives (.tier 0) ts [p]) us := reads_tier hc

theorem reads_enclosed {closing : Sign} (hc : chart.Sound us) :
    (chart.enclosed closing us.length).Reads
      (fun ts ps => ∃ inner t, ts = inner ++ [t] ∧ t.terminal = .sign closing ∧
        Derives .arguments inner ps) us := by
  refine .orElse (hc.row.entries.andThen fun run rest ps h hp => ?_) ?_
  · refine (reads_sign (hc.suffix h)).map ?_
    rintro _ t ⟨rfl, ht⟩
    exact ⟨run, t, rfl, ht, .someArguments hp⟩
  · refine (reads_sign hc).map ?_
    rintro _ t ⟨rfl, ht⟩
    exact ⟨[], t, rfl, ht, .noArguments⟩

theorem reads_arguments (hc : chart.Sound us) :
    (chart.arguments us.length).Reads
      (fun ts ps => ∃ opening inner closing, ts = opening :: inner ++ [closing] ∧
        opening.terminal = .sign .leftParen ∧ closing.terminal = .sign .rightParen ∧
        Derives .arguments inner ps) us := by
  refine (reads_sign hc).andThen ?_
  rintro _ rest opening h ⟨rfl, ho⟩
  refine (reads_enclosed (hc.suffix h)).mono ?_
  rintro _ ps ⟨inner, closing, rfl, hc, hp⟩
  exact ⟨opening, inner, closing, rfl, ho, hc, hp⟩

theorem reads_doBlock (hc : chart.Sound us) :
    (chart.doBlock us.length).Reads
      (fun ts ps => ∃ opening body rest b more, ts = opening :: body ++ rest ∧
        opening.terminal = .word .doWord ∧ Derives .body body [b] ∧ Derives .parts rest more ∧
        ps = .part opening b :: more) us := by
  refine (reads_word hc).andThen ?_
  rintro _ rest opening h ⟨rfl, ho⟩
  refine (hc.suffix h).row.sections.map ?_
  rintro _ ⟨b, more⟩ ⟨body, rest, rfl, hb, hr⟩
  exact ⟨opening, body, rest, b, more, rfl, ho, hb, hr, rfl⟩

theorem reads_named {name : Token} (hc : chart.Sound us) (hn : name.terminal = .name) :
    (chart.named us.length name).Reads (fun ts p => Derives .primary (name :: ts) [p]) us := by
  refine .orElse (.orElse (.orElse (hc.row.entries.andThen fun run rest args h ha => ?_) ?_) ?_) ?_
  · refine (reads_doBlock (hc.suffix h)).map ?_
    rintro _ _ ⟨opening, body, rest, b, more, rfl, ho, hb, hr, rfl⟩
    have := Derives.block hn (.someArguments ha) ho hb hr
    simpa using this
  · refine (reads_doBlock hc).map ?_
    rintro _ _ ⟨opening, body, rest, b, more, rfl, ho, hb, hr, rfl⟩
    exact .block hn .noArguments ho hb hr
  · refine (reads_arguments hc).map ?_
    rintro _ _ ⟨opening, inner, closing, rfl, ho, hc, hp⟩
    exact .call hn ho hp hc
  · exact Parses.reads_done (.name hn)

theorem reads_primary {t : Token} (hc : chart.Sound us) :
    (chart.primary us.length t).Reads (fun ts p => Derives .primary (t :: ts) [p]) us := by
  unfold primary
  split
  · next ht => exact reads_named hc ht
  · next ht => exact Parses.reads_done (.modulePath ht)
  · next ht =>
    refine (reads_token hc).map ?_
    rintro _ name ⟨rfl, hn⟩
    exact .assign ht (by simpa using hn)
  · next ht =>
    refine (reads_expression hc).andThen fun run rest p h hp => ?_
    refine (reads_sign (hc.suffix h)).map ?_
    rintro _ closing ⟨rfl, hcl⟩
    exact .parens ht hp hcl
  · next ht =>
    refine (reads_enclosed hc).map ?_
    rintro _ ps ⟨inner, closing, rfl, hcl, hp⟩
    exact .list ht hp hcl
  · next ht =>
    refine (reads_enclosed hc).map ?_
    rintro _ ps ⟨inner, closing, rfl, hcl, hp⟩
    exact .tuple ht hp hcl
  · split
    · next ht => exact Parses.reads_done (.literal ht)
    · exact Parses.reads_fail _

theorem reads_trailers (hc : chart.Sound us) (hh : ∀ t ∈ head, us.head? = some t) :
    (chart.trailers us.length head).Reads Attaches us := by
  refine .orElse (.orElse ?_ ?_) (Parses.reads_done attaches_nil)
  · refine (reads_tokenIf hh).andThen ?_
    rintro _ rest dot h ⟨rfl, hd⟩
    refine (reads_token (hc.suffix h)).andThen ?_
    rintro _ rest name rfl ⟨rfl, hn⟩
    have hc := (hc.suffix h).suffix rfl
    simp only [decide_eq_true_eq] at hd hn
    refine .orElse ((reads_arguments hc).andThen ?_) (hc.row.trailers.map ?_)
    · rintro _ rest args h ⟨opening, inner, closing, rfl, ho, hcl, ha⟩
      refine (hc.suffix h).row.trailers.map fun ts trailers ht => ?_
      have := ht.cons (dot :: name :: opening :: inner ++ [closing]) (.call name args)
        fun us p hp => by
          have := Derives.remoteCall hp hd hn ho ha hcl
          simpa [Trailer.attach] using this
      simpa using this
    · intro ts trailers ht
      exact ht.cons [dot, name] (.field name) fun us p hp => .field hp hd hn
  · refine (reads_tokenIf hh).andThen ?_
    rintro _ rest opening h ⟨rfl, ho⟩
    have hc := hc.suffix h
    simp only [decide_eq_true_eq] at ho
    refine (reads_expression hc).andThen fun inner rest key h hk => ?_
    refine (reads_sign (hc.suffix h)).andThen ?_
    rintro _ rest closing h' ⟨rfl, hcl⟩
    refine ((hc.suffix h).suffix h').row.trailers.map fun ts trailers ht => ?_
    have := ht.cons (opening :: inner ++ [closing]) (.access key) fun us p hp => by
      have := Derives.access hp ho hk hcl
      simpa [Trailer.attach] using this
    simpa using this

theorem reads_chainFrom {k : Nat} {tighter : Parses Phrase} (hc : chart.Sound us)
    (ht : tighter.Reads (fun ts p => Derives (.tier (k + 1)) ts [p]) us) :
    (chart.chainFrom k tighter).Reads (Links k) us := by
  refine ht.andThen fun run rest p h hp => ?_
  have hc := hc.suffix h
  refine .orElse ((reads_token hc).andThen ?_) (Parses.reads_done (by simpa using .last hp))
  rintro _ rest op h ⟨rfl, ho⟩
  simp only [decide_eq_true_eq] at ho
  have hc := hc.suffix h
  split
  · refine (reads_tier hc).map fun ts q hq => ?_
    have := Links.link hp ho (fun _ => ⟨q, rfl⟩) (.last hq)
    simpa using this
  · next hs =>
    refine (reads_chain hc).map fun ts chain hch => ?_
    have := Links.link hp ho (fun h => absurd h hs) hch
    simpa using this

theorem reads_ladder {unary : Parses Phrase} (hc : chart.Sound us)
    (hu : unary.Reads (fun ts p => Derives (.tier unaryTier) ts [p]) us) (n : Nat)
    (hn : n ≤ unaryTier) :
    (∀ i (p : Parses Chain), (chart.ladder unary n).1[i]? = some p →
      p.Reads (Links (unaryTier - n + i)) us) ∧
    ∀ i (p : Parses Phrase), (chart.ladder unary n).2[i]? = some p →
      p.Reads (fun ts p => Derives (.tier (unaryTier - n + i)) ts [p]) us := by
  induction n with
  | zero =>
    refine ⟨fun i p h => (by cases h), fun i p h => ?_⟩
    cases i with
    | zero =>
      cases h
      exact hu
    | succ i => cases h
  | succ n ih =>
    obtain ⟨hchains, htiers⟩ := ih (by omega)
    have hk : unaryTier - (n + 1) + 1 = unaryTier - n := by omega
    have hchain : (chart.chainFrom (unaryTier - (n + 1))
        ((chart.ladder unary n).2.headD (.fail 0))).Reads (Links (unaryTier - (n + 1))) us := by
      refine reads_chainFrom hc ?_
      rw [hk]
      cases h : (chart.ladder unary n).2 with
      | nil => exact Parses.reads_fail _
      | cons p ps => exact htiers 0 p (by rw [h]; rfl)
    refine ⟨fun i p h => ?_, fun i p h => ?_⟩
    · cases i with
      | zero =>
        cases h
        exact hchain
      | succ i =>
        have := hchains i p h
        rwa [show unaryTier - (n + 1) + (i + 1) = unaryTier - n + i by omega]
    · cases i with
      | zero =>
        cases h
        exact hchain.map fun ts c hl => hl.derives (by omega)
      | succ i =>
        have := htiers i p h
        rwa [show unaryTier - (n + 1) + (i + 1) = unaryTier - n + i by omega]

theorem reads_finish {body : Phrase} (hc : chart.Sound us) (hh : ∀ t ∈ head, us.head? = some t) :
    (chart.finish us.length head body).Reads
      (fun ts b => b.1 = body ∧ Derives .parts ts b.2) us := by
  refine .orElse ((reads_tokenIf hh).map ?_) ((reads_tokenIf hh).andThen ?_)
  · rintro _ t ⟨rfl, ht⟩
    exact ⟨rfl, .noParts (by simpa using ht)⟩
  · rintro _ rest label h ⟨rfl, hl⟩
    refine (hc.suffix h).row.sections.map ?_
    rintro _ ⟨next, more⟩ ⟨ts, rest, rfl, hn, hm⟩
    obtain ⟨w, hw, ho⟩ : ∃ w, label.terminal = .word w ∧ w.opensSection := by
      unfold isLabel at hl
      split at hl
      · next w hw => exact ⟨w, hw, hl⟩
      · cases hl
    exact ⟨rfl, by simpa using Derives.moreParts hw ho hn hm⟩

theorem reads_separated {α : Type} {more : Row → Parses α} {P : List Token → α → Prop}
    (hc : chart.Sound us) (hh : ∀ t ∈ head, us.head? = some t)
    (hm : ∀ row rest, row.Sound rest → (more row).Reads P rest)
    (hP : ∀ gap ts a, gap.terminal = .sign .semicolon → P ts a → P (gap :: ts) a) :
    (chart.separated us.length head more).Reads P us := by
  refine (reads_tokenIf hh).andThen ?_
  rintro _ rest gap h ⟨rfl, hg⟩
  exact (hm _ _ (hc.suffix h).row).mono fun ts a ha => hP gap ts a (by simpa using hg) ha

section

variable {item : Parses Phrase} {more : Row → Parses (List Phrase)}
variable {P : List Token → Phrase → Prop} {Q : List Token → List Phrase → Prop}

theorem reads_several (hc : chart.Sound us) (hi : item.Reads P us)
    (hm : ∀ row rest, row.Sound rest → (more row).Reads Q rest)
    (hmore : ∀ ts p comma rest ps, P ts p → comma.terminal = .sign .comma → Q rest ps →
      Q (ts ++ comma :: rest) (p :: ps)) :
    (chart.several item more).Reads Q us := by
  refine hi.andThen fun run rest p h hp => ?_
  have hc := hc.suffix h
  refine (reads_sign hc).andThen ?_
  rintro _ rest comma h ⟨rfl, hcomma⟩
  exact (hm _ _ (hc.suffix h).row).map fun ts ps hq => hmore run p comma ts ps hp hcomma hq

theorem reads_commaList (hs : (chart.several item more).Reads Q us) (hi : item.Reads P us)
    (hlast : ∀ ts p, P ts p → Q ts [p]) : (chart.commaList item more).Reads Q us :=
  .orElse hs (hi.map hlast)

theorem reads_afterComma (hs : (chart.several item more).Reads Q us) (hi : item.Reads P us)
    (hlast : ∀ ts p, P ts p → Q ts [p]) : (chart.afterComma item more).Reads Q us :=
  .orElse (hi.map hlast) hs

end

theorem reads_operand (hc : chart.Sound us) (hh : ∀ t ∈ head, us.head? = some t) :
    (chart.operand us.length head).Reads (fun ts p => Derives .operand ts [p]) us := by
  cases head with
  | none => exact Parses.reads_fail _
  | some t =>
    obtain ⟨rest, rfl⟩ := List.head?_eq_some_iff.1 (hh t rfl)
    have hc' : chart.Sound rest := fun run' rest' h => hc (t :: run') rest' (by rw [h]; rfl)
    intro left p hr
    obtain ⟨⟨l, q⟩, hq, hr⟩ := Parses.mem_of_mem_andThen hr
    obtain ⟨run, rest', rfl, rfl, hp⟩ := reads_primary hc' l q hq
    obtain ⟨trailers, htr, rfl⟩ := Parses.mem_results_map.1 hr
    obtain ⟨run', rest, rfl, hl, ha⟩ := (hc'.suffix rfl).row.trailers _ _ htr
    refine ⟨t :: run ++ run', rest, by simp, hl, ha _ _ (.primary hp)⟩

theorem reads_unary (hc : chart.Sound us) (hh : ∀ t ∈ head, us.head? = some t) :
    (chart.unary us.length head).Reads (fun ts p => Derives (.tier unaryTier) ts [p]) us := by
  refine .orElse ((reads_tokenIf hh).andThen ?_) ((reads_operand hc hh).mono fun _ _ => .operand)
  rintro _ rest op h ⟨rfl, ho⟩
  exact (reads_tier (hc.suffix h)).map fun ts p hp => .unary ho hp

theorem reads_entry {expression : Parses Phrase} (hc : chart.Sound us)
    (hh : ∀ t ∈ head, us.head? = some t)
    (he : expression.Reads (fun ts p => Derives (.tier 0) ts [p]) us) :
    (chart.entry us.length head expression).Reads (fun ts p => Derives .entry ts [p]) us := by
  refine .orElse (he.mono fun _ _ => .expression) ((reads_tokenIf hh).andThen ?_)
  rintro _ rest key h ⟨rfl, hk⟩
  exact (reads_expression (hc.suffix h)).map fun ts p hp => .keyword (by simpa using hk) hp

theorem reads_statementsFrom {expression : Parses Phrase} (hc : chart.Sound us)
    (he : expression.Reads (fun ts p => Derives (.tier 0) ts [p]) us) :
    (chart.statementsFrom expression).Reads (Derives .statements) us := by
  refine he.andThen fun run rest p h hp => (hc.suffix h).row.moreStatements.map ?_
  rintro _ ps ⟨gap, ts, rfl, hg, ⟨rfl, rfl⟩ | ⟨hne, hs⟩⟩
  · simpa using Derives.lastStatement hp hg
  · simpa using Derives.moreStatements hp hg hne hs

theorem reads_moreStatements (hc : chart.Sound us) (hh : ∀ t ∈ head, us.head? = some t) :
    ((chart.separated us.length head fun row => row.statements.orElse row.moreStatements).orElse
      (.done us.length [])).Reads Continues us := by
  refine .orElse ((reads_tokenIf hh).andThen ?_)
    (Parses.reads_done ⟨[], [], rfl, ?_, .inl ⟨rfl, rfl⟩⟩)
  · rintro _ rest gap h ⟨rfl, hg⟩
    simp only [decide_eq_true_eq] at hg
    have hrow := (hc.suffix h).row
    refine .orElse (hrow.statements.mono ?_) (hrow.moreStatements.mono ?_)
    · intro ts ps hs
      exact ⟨[gap], ts, rfl, by simp [Separators, hg], .inr ⟨by simp, hs⟩⟩
    · rintro _ ps ⟨gaps, ts, rfl, hgs, hs⟩
      refine ⟨gap :: gaps, ts, rfl, (separators_cons hg).2 hgs, ?_⟩
      obtain hs | ⟨-, hs⟩ := hs
      · exact .inl hs
      · exact .inr ⟨by simp, hs⟩
  · simp [Separators]

theorem reads_clausesFrom {patterns : Parses (List Phrase)} (hc : chart.Sound us)
    (hp : patterns.Reads (Derives .patterns) us) :
    (chart.clausesFrom patterns).Reads (Derives .clauses) us := by
  refine hp.andThen fun run rest ps h hps => ?_
  have hc := hc.suffix h
  refine (reads_sign hc).andThen ?_
  rintro _ rest arrow h ⟨rfl, ha⟩
  refine (hc.suffix h).row.clauseBody.map ?_
  rintro _ ⟨body, more⟩ ⟨ts, rest, rfl, hb, hm⟩
  have hclause := Derives.clause hps ha hb
  obtain ⟨rfl, hm⟩ | hm := hm
  · obtain rfl : more = [] := hm
    simpa using Derives.lastClause hclause
  · simpa using Derives.moreClauses hclause hm

theorem reads_clauseBodyFrom {statements clauses : Parses (List Phrase)} (hc : chart.Sound us)
    (hh : ∀ t ∈ head, us.head? = some t) (hs : statements.Reads (Derives .statements) us)
    (hcl : clauses.Reads (Derives .clauses) us) :
    (chart.clauseBodyFrom us.length head statements clauses).Reads ClauseBody us := by
  refine .orElse (.orElse (.orElse (reads_separated hc hh (fun _ _ h => h.clauseBody) ?_) ?_) ?_) ?_
  · rintro gap _ ⟨body, more⟩ hg ⟨ts, rest, rfl, hb, hm⟩
    exact ⟨gap :: ts, rest, rfl, hb.program_cons hg, hm⟩
  · refine hs.andThen fun run rest body h hb => .orElse ?_ (Parses.reads_done ?_)
    · refine (hc.suffix h).row.clauses.map fun ts more hm => ?_
      exact ⟨run, ts, rfl, .someStatements separators_nil hb, .inr hm⟩
    · exact ⟨run, [], rfl, .someStatements separators_nil hb, .inl ⟨rfl, rfl⟩⟩
  · exact hcl.map fun ts more hm => ⟨[], ts, rfl, .noStatements separators_nil, .inr hm⟩
  · exact Parses.reads_done ⟨[], [], rfl, .noStatements separators_nil, .inl ⟨rfl, rfl⟩⟩

theorem reads_sectionsFrom {statements clauses : Parses (List Phrase)} (hc : chart.Sound us)
    (hh : ∀ t ∈ head, us.head? = some t) (hs : statements.Reads (Derives .statements) us)
    (hcl : clauses.Reads (Derives .clauses) us) :
    (chart.sectionsFrom us.length head statements clauses).Reads Sections us := by
  refine .orElse (.orElse (reads_separated hc hh (fun _ _ h => h.sections) ?_) ?_) ?_
  · rintro gap _ ⟨body, more⟩ hg ⟨ts, rest, rfl, hb, hm⟩
    exact ⟨gap :: ts, rest, rfl, hb.body_cons hg, hm⟩
  · refine Parses.Reads.andThen (P := fun ts b => Derives .body ts [b]) (.orElse ?_ ?_) ?_
    · exact hs.map fun ts ps hp => .statements (.someStatements separators_nil hp)
    · exact hcl.map fun ts ps hp => .clauses separators_nil hp
    · intro run rest body h hb
      refine (reads_finish (hc.suffix h) (hc.suffix h).row.head).mono ?_
      rintro ts ⟨b, more⟩ ⟨rfl, hm⟩
      exact ⟨run, ts, rfl, hb, hm⟩
  · refine (reads_finish hc hh).mono ?_
    rintro ts ⟨b, more⟩ ⟨rfl, hm⟩
    exact ⟨[], ts, rfl, .statements (.noStatements separators_nil), hm⟩

theorem sound_before (hc : chart.Sound us) (hh : ∀ t ∈ head, us.head? = some t)
    (hl : chart.size = us.length) : (chart.before head).Sound us := by
  have hladder := reads_ladder hc (reads_unary hc hh) unaryTier (Nat.le_refl _)
  rw [before, hl]
  generalize chart.ladder (chart.unary us.length head) unaryTier = ladder at hladder ⊢
  obtain ⟨chains, tiers⟩ := ladder
  obtain ⟨hchains, htiers⟩ := hladder
  simp only [Nat.sub_self, Nat.zero_add] at hchains htiers
  have he : (tiers.headD (.fail us.length)).Reads (fun ts p => Derives (.tier 0) ts [p]) us := by
    cases tiers with
    | nil => exact Parses.reads_fail _
    | cons p ps => exact htiers 0 p rfl
  have hs := reads_statementsFrom hc he
  have hn := reads_entry hc hh he
  have hentries : (chart.several _ Row.moreEntries).Reads (Derives .entries) us :=
    reads_several hc hn (fun _ _ h => h.moreEntries) fun _ _ _ _ _ => .moreEntries
  have hpatterns : (chart.several _ Row.morePatterns).Reads (Derives .patterns) us :=
    reads_several hc he (fun _ _ h => h.morePatterns) fun _ _ _ _ _ => .morePatterns
  have hcl := reads_clausesFrom hc (reads_commaList hpatterns he fun _ _ => .lastPattern)
  exact {
    head := hh
    tiers := htiers
    chains := hchains
    trailers := reads_trailers hc hh
    entries := reads_commaList hentries hn fun _ _ => .lastEntry
    moreEntries := reads_afterComma hentries hn fun _ _ => .lastEntry
    statements := hs
    moreStatements := reads_moreStatements hc hh
    morePatterns := reads_afterComma hpatterns he fun _ _ => .lastPattern
    clauses := hcl
    clauseBody := reads_clauseBodyFrom hc hh hs hcl
    sections := reads_sectionsFrom hc hh hs hcl
    program := by
      refine .orElse (.orElse (reads_separated hc hh (fun _ _ h => h.program) ?_) ?_) ?_
      · exact fun gap ts p hg hp => hp.program_cons hg
      · exact hs.map fun ts ps h => .someStatements separators_nil h
      · exact Parses.reads_done (.noStatements separators_nil) }

theorem size_ofTokens (ts : List Token) : (ofTokens ts).size = ts.length + 1 := by
  induction ts with
  | nil => rfl
  | cons t ts ih => rw [ofTokens, Array.size_push, ih, List.length_cons]

theorem row_ofTokens_first (t : Token) (ts : List Token) :
    (ofTokens (t :: ts)).row (t :: ts).length = (ofTokens ts).before (some t) := by
  rw [row, ofTokens, List.length_cons, ← size_ofTokens, Array.getElem?_push_size]
  rfl

theorem row_ofTokens_later {t : Token} {ts run rest : List Token} (h : ts = run ++ rest) :
    (ofTokens (t :: ts)).row rest.length = (ofTokens ts).row rest.length := by
  have hlt : rest.length < (ofTokens ts).size := by
    rw [size_ofTokens, h, List.length_append]
    omega
  rw [row, row, ofTokens, Array.getElem?_push_lt hlt, Array.getElem?_eq_getElem hlt]

theorem sound_ofTokens (ts : List Token) : (ofTokens ts).Sound ts := by
  induction ts with
  | nil =>
    rintro run rest h
    obtain ⟨rfl, rfl⟩ := List.append_eq_nil_iff.1 h.symm
    refine sound_before (fun run rest _ => ?_) (by rintro _ ⟨⟩) rfl
    exact Row.sound_default rest
  | cons t ts ih =>
    -- The rows behind the new token do not know of it.
    have hlater : (ofTokens ts).Sound (t :: ts) := by
      rintro run rest h
      cases run with
      | nil =>
        obtain rfl : t :: ts = rest := h
        have : (ofTokens ts).row (t :: ts).length = default := by
          rw [row, Array.getElem?_eq_none (by rw [size_ofTokens]; exact Nat.le_refl _)]
          rfl
        rw [this]
        exact Row.sound_default _
      | cons r run =>
        cases h
        exact ih run rest rfl
    rintro run rest h
    cases run with
    | nil =>
      obtain rfl : t :: ts = rest := h
      rw [row_ofTokens_first]
      exact sound_before hlater (by rintro _ ⟨⟩; rfl) (size_ofTokens ts)
    | cons r run =>
      obtain ⟨-, hts⟩ := List.cons.inj h
      rw [row_ofTokens_later hts]
      exact hlater _ _ h

end Chart

theorem Phrase.derives_of_ofTokens {ts : List Token} {p : Phrase} (h : ofTokens ts = .ok p) :
    Derives .program ts [p] := by
  unfold ofTokens at h
  dsimp only at h
  split at h
  · next q hq =>
    cases h
    obtain ⟨⟨left, a⟩, ha, rfl⟩ := Option.map_eq_some_iff.1 hq
    obtain rfl : left = 0 := by simpa using List.find?_some ha
    obtain ⟨run, rest, rfl, hr, hp⟩ :=
      (Chart.sound_ofTokens ts).row.program 0 a (List.mem_of_find?_eq_some ha)
    obtain rfl := List.length_eq_zero_iff.1 hr
    rwa [List.append_nil]
  · cases h

end EmbeddedTemplate.Code
