import EmbeddedTemplate.Proofs.Code.Languages
import Mathlib.Tactic.IntervalCases

/-!
A chart reads everything that the grammar derives, and reaches as far as the grammar goes: its
readings end exactly behind the runs of a category, and exactly the tokens that some run starts with
are within its reach.
-/

namespace EmbeddedTemplate.Code

open scoped Computability

variable {α β : Type} {L M : Language Token} {t : Token} {us run rest : List Token}

/-- Tokens that some run of a language starts with. -/
def starts (L : Language Token) : Language Token := {ts | ∃ more, ts ++ more ∈ L}

theorem mem_starts_of_mem (h : run ∈ L) : run ∈ starts L := ⟨[], by rwa [List.append_nil]⟩

theorem mem_starts_of_append (h : run ++ rest ∈ starts L) : run ∈ starts L := by
  obtain ⟨more, h⟩ := h
  exact ⟨rest ++ more, by rwa [List.append_assoc] at h⟩

theorem mem_starts_add : run ∈ starts (L + M) ↔ run ∈ starts L ∨ run ∈ starts M := by
  constructor
  · rintro ⟨more, h | h⟩
    · exact .inl ⟨more, h⟩
    · exact .inr ⟨more, h⟩
  · rintro (⟨more, h⟩ | ⟨more, h⟩)
    · exact ⟨more, .inl h⟩
    · exact ⟨more, .inr h⟩

theorem mem_starts_mul (hM : ∃ ts, ts ∈ M) :
    run ∈ starts (L * M) ↔ run ∈ starts L ∨ ∃ a b, run = a ++ b ∧ a ∈ L ∧ b ∈ starts M := by
  constructor
  · rintro ⟨more, a, ha, b, hb, h⟩
    obtain ⟨c, rfl, rfl⟩ | ⟨c, rfl, rfl⟩ := List.append_eq_append_iff.1 h
    · exact .inr ⟨a, c, rfl, ha, more, hb⟩
    · exact .inl ⟨c, ha⟩
  · rintro (⟨more, h⟩ | ⟨a, b, rfl, ha, more, hb⟩)
    · obtain ⟨m, hm⟩ := hM
      refine ⟨more ++ m, ?_⟩
      rw [← List.append_assoc]
      exact Language.append_mem_mul h hm
    · refine ⟨more, ?_⟩
      rw [List.append_assoc]
      exact Language.append_mem_mul ha hb

namespace Parses

variable {p q : Parses α} {n : Nat}

def Ends (p : Parses α) (left : Nat) : Prop := ∃ a, (left, a) ∈ p.results

theorem ends_map {f : α → β} : (p.map f).Ends n ↔ p.Ends n := by
  simp [Ends, mem_results_map]

theorem ends_orElse : (p.orElse q).Ends n ↔ p.Ends n ∨ q.Ends n := by
  constructor
  · rintro ⟨a, h⟩
    exact (mem_or_of_mem_orElse h).imp (⟨a, ·⟩) (⟨a, ·⟩)
  · rintro (⟨a, h⟩ | ⟨a, h⟩)
    · exact ⟨a, List.mem_append_left _ h⟩
    · by_cases hp : p.Ends n
      · obtain ⟨b, hb⟩ := hp
        exact ⟨b, List.mem_append_left _ hb⟩
      · refine ⟨a, List.mem_append_right _ (List.mem_filter.2 ⟨h, ?_⟩)⟩
        rw [List.all_eq_true]
        rintro ⟨m, b⟩ hb
        simp only [decide_eq_true_eq]
        rintro rfl
        exact hp ⟨b, hb⟩

theorem ends_andThen {next : Nat → α → Parses β} :
    (p.andThen next).Ends n ↔ ∃ r ∈ p.results, (next r.1 r.2).Ends n := by
  obtain ⟨results, reach⟩ := p
  simp only [andThen]
  induction results with
  | nil => simp [Ends]
  | cons r results ih => simp [ends_orElse, ih]

theorem reach_andThen_le {next : Nat → α → Parses β} : (p.andThen next).reach ≤ n ↔
    p.reach ≤ n ∨ ∃ r ∈ p.results, (next r.1 r.2).reach ≤ n := by
  obtain ⟨results, reach⟩ := p
  simp only [andThen]
  induction results with
  | nil => simp [fail]
  | cons r results ih =>
    simp only [List.foldr_cons, reach_orElse, min_le_iff, ih, List.mem_cons]
    grind

/-- Readings from a place end behind the runs of the language there, and reach as far as it goes. -/
structure Covers (L : Language Token) (us : List Token) (p : Parses α) : Prop where
  ends : ∀ run rest, us = run ++ rest → (p.Ends rest.length ↔ run ∈ L)
  reach : ∀ run rest, us = run ++ rest → (p.reach ≤ rest.length ↔ run ∈ starts L)
  le : ∀ left, p.Ends left → left ≤ us.length

theorem Covers.exists_split (h : p.Covers L us) (hn : p.Ends n) :
    ∃ run rest, us = run ++ rest ∧ rest.length = n ∧ run ∈ L := by
  have hle := h.le n hn
  have hs : us = us.take (us.length - n) ++ us.drop (us.length - n) :=
    (List.take_append_drop ..).symm
  have hl : (us.drop (us.length - n)).length = n := by
    rw [List.length_drop]
    omega
  exact ⟨_, _, hs, hl, (h.ends _ _ hs).1 (by rwa [hl])⟩

theorem Covers.map {f : α → β} (h : p.Covers L us) : (p.map f).Covers L us where
  ends run rest hs := ends_map.trans (h.ends run rest hs)
  reach run rest hs := h.reach run rest hs
  le left hl := h.le left (ends_map.1 hl)

theorem Covers.orElse (hp : p.Covers L us) (hq : q.Covers M us) :
    (p.orElse q).Covers (L + M) us where
  ends run rest hs := by
    rw [ends_orElse, hp.ends run rest hs, hq.ends run rest hs, Language.mem_add]
  reach run rest hs := by
    rw [reach_orElse, min_le_iff, hp.reach run rest hs, hq.reach run rest hs, mem_starts_add]
  le left hl := (ends_orElse.1 hl).elim (hp.le left) (hq.le left)

theorem exists_between {run₁ rest₁ : List Token} (h : run ++ rest = run₁ ++ rest₁)
    (hl : rest.length ≤ rest₁.length) : ∃ more, rest₁ = more ++ rest ∧ run = run₁ ++ more := by
  obtain ⟨c, rfl, rfl⟩ | ⟨c, rfl, rfl⟩ := List.append_eq_append_iff.1 h
  · rw [List.length_append] at hl
    obtain rfl := List.length_eq_zero_iff.1 (show c.length = 0 by omega)
    exact ⟨[], rfl, by simp⟩
  · exact ⟨c, rfl, rfl⟩

theorem Covers.andThen {next : Nat → α → Parses β} (hp : p.Covers L us) (hM : ∃ ts, ts ∈ M)
    (hn : ∀ run rest a, us = run ++ rest → run ∈ L → (next rest.length a).Covers M rest) :
    (p.andThen next).Covers (L * M) us where
  ends run rest hs := by
    rw [ends_andThen, Language.mem_mul]
    constructor
    · rintro ⟨⟨l, a⟩, ha, hr⟩
      obtain ⟨run₁, rest₁, rfl, rfl, hm⟩ := hp.exists_split ⟨a, ha⟩
      have hnext := hn run₁ rest₁ a rfl hm
      obtain ⟨run₂, rfl, rfl⟩ := exists_between hs.symm (hnext.le _ hr)
      exact ⟨run₁, hm, run₂, (hnext.ends _ _ rfl).1 hr, rfl⟩
    · rintro ⟨run₁, h₁, run₂, h₂, rfl⟩
      rw [List.append_assoc] at hs
      obtain ⟨a, ha⟩ := (hp.ends _ _ hs).2 h₁
      exact ⟨_, ha, ((hn _ _ a hs h₁).ends _ _ rfl).2 h₂⟩
  reach run rest hs := by
    rw [reach_andThen_le, mem_starts_mul hM, hp.reach run rest hs]
    refine or_congr_right' fun hnot => ⟨?_, ?_⟩
    · rintro ⟨⟨l, a⟩, ha, hr⟩
      obtain ⟨run₁, rest₁, rfl, rfl, hm⟩ := hp.exists_split ⟨a, ha⟩
      have hnext := hn run₁ rest₁ a rfl hm
      by_cases hle : rest.length ≤ rest₁.length
      · obtain ⟨run₂, rfl, rfl⟩ := exists_between hs.symm hle
        exact ⟨run₁, run₂, rfl, hm, (hnext.reach _ _ rfl).1 hr⟩
      · -- What ends before the first part does is a start of it.
        obtain ⟨more, -, rfl⟩ := exists_between hs (Nat.le_of_not_le hle)
        exact absurd (mem_starts_of_append (mem_starts_of_mem hm)) hnot
    · rintro ⟨run₁, run₂, rfl, h₁, h₂⟩
      rw [List.append_assoc] at hs
      obtain ⟨a, ha⟩ := (hp.ends _ _ hs).2 h₁
      exact ⟨_, ha, ((hn _ _ a hs h₁).reach _ _ rfl).2 h₂⟩
  le left hl := by
    obtain ⟨⟨l, a⟩, ha, hr⟩ := ends_andThen.1 hl
    obtain ⟨run₁, rest₁, rfl, rfl, hm⟩ := hp.exists_split ⟨a, ha⟩
    have := (hn run₁ rest₁ a rfl hm).le left hr
    rw [List.length_append]
    omega

theorem covers_done {a : α} : (done us.length a).Covers 1 us where
  ends run rest hs := by
    subst hs
    simp only [Ends, results_done, List.mem_singleton, Prod.mk.injEq, Language.mem_one,
      List.length_append]
    constructor
    · rintro ⟨_, h, -⟩
      exact List.length_eq_zero_iff.1 (by omega)
    · rintro rfl
      exact ⟨a, by simp, rfl⟩
  reach run rest hs := by
    subst hs
    simp only [done, List.length_append]
    constructor
    · intro h
      obtain rfl := List.length_eq_zero_iff.1 (show run.length = 0 by omega)
      exact ⟨[], rfl⟩
    · rintro ⟨more, h⟩
      obtain ⟨rfl, -⟩ := List.append_eq_nil_iff.1 ((Language.mem_one _).1 h)
      simp
  le left := by
    rintro ⟨b, h⟩
    cases List.mem_singleton.1 h
    exact Nat.le_refl _

theorem covers_fail (hL : ∃ ts, ts ∈ L) (hnil : [] ∉ L) (h : ∀ t ∈ us.head?, ∀ ts, t :: ts ∉ L) :
    (fail us.length : Parses α).Covers L us := by
  have hrun {run rest : List Token} (hs : us = run ++ rest) (more : List Token)
      (hm : run ++ more ∈ L) : run = [] := by
    cases run with
    | nil => rfl
    | cons t run => exact absurd hm (h t (by rw [hs]; rfl) _)
  refine ⟨fun run rest hs => ⟨?_, fun hm => ?_⟩, fun run rest hs => ⟨fun hle => ?_, ?_⟩, ?_⟩
  · rintro ⟨a, ⟨⟩⟩
  · obtain rfl := hrun hs [] (by rwa [List.append_nil])
    exact absurd hm hnil
  · subst hs
    simp only [fail, List.length_append] at hle
    obtain rfl := List.length_eq_zero_iff.1 (show run.length = 0 by omega)
    exact hL
  · rintro ⟨more, hm⟩
    obtain rfl := hrun hs more hm
    subst hs
    simp [fail]
  · rintro left ⟨a, ⟨⟩⟩

theorem Covers.cons (h : p.Covers M us) (hM : ∃ ts, ts ∈ M) (hnil : [] ∉ L)
    (hL : ∀ ts, t :: ts ∈ L ↔ ts ∈ M) : p.Covers L (t :: us) where
  ends run rest hs := by
    cases run with
    | nil =>
      refine ⟨fun he => ?_, fun hm => absurd hm hnil⟩
      have := h.le _ he
      rw [List.nil_append] at hs
      rw [← hs, List.length_cons] at this
      omega
    | cons u run =>
      obtain ⟨rfl, rfl⟩ := List.cons.inj hs
      rw [h.ends run rest rfl, hL]
  reach run rest hs := by
    cases run with
    | nil =>
      obtain ⟨ts, hts⟩ := hM
      have : p.reach ≤ us.length := (h.reach [] us rfl).2 ⟨ts, hts⟩
      rw [List.nil_append] at hs
      rw [← hs, List.length_cons]
      exact ⟨fun _ => ⟨_, (hL ts).2 hts⟩, fun _ => by omega⟩
    | cons u run =>
      obtain ⟨rfl, rfl⟩ := List.cons.inj hs
      rw [h.reach run rest rfl]
      exact exists_congr fun more => (hL _).symm
  le left hl := by
    have := h.le left hl
    rw [List.length_cons]
    omega

end Parses

structure Row.Covers (us : List Token) (row : Row) : Prop where
  head : row.head = us.head?
  tiers : ∀ k ≤ unaryTier, ∃ p, row.tiers[k]? = some p ∧ p.Covers (Category.tier k).runs us
  chains : ∀ k < unaryTier, ∃ p, row.chains[k]? = some p ∧ p.Covers (Category.tier k).runs us
  trailers : row.trailers.Covers trailerRuns∗ us
  entries : row.entries.Covers Category.entries.runs us
  moreEntries : row.moreEntries.Covers Category.entries.runs us
  statements : row.statements.Covers Category.statements.runs us
  moreStatements : row.moreStatements.Covers moreRuns us
  morePatterns : row.morePatterns.Covers Category.patterns.runs us
  clauses : row.clauses.Covers Category.clauses.runs us
  clauseBody : row.clauseBody.Covers clauseBodyRuns us
  sections : row.sections.Covers sectionsRuns us
  program : row.program.Covers Category.program.runs us

namespace Chart

def Covers (chart : Chart) (us : List Token) : Prop :=
  ∀ run rest, us = run ++ rest → (chart.row rest.length).Covers rest

def CoversBehind (chart : Chart) (us : List Token) : Prop :=
  ∀ t rest, us = t :: rest → chart.Covers rest

variable {chart : Chart} {test : Terminal → Bool} {head : Option Token} {c : Category} {k : Nat}

theorem Covers.row (h : chart.Covers us) : (chart.row us.length).Covers us := h [] us rfl

theorem Covers.suffix (h : chart.Covers us) (hs : us = run ++ rest) : chart.Covers rest := by
  rintro run' rest' rfl
  exact h (run ++ run') rest' (by rw [hs, List.append_assoc])

theorem Covers.behind (h : chart.Covers us) : chart.CoversBehind us := by
  rintro t rest rfl
  exact h.suffix (show t :: rest = [t] ++ rest from rfl)

theorem CoversBehind.suffix (h : chart.CoversBehind us) (hs : us = run ++ rest) (hr : run ≠ []) :
    chart.Covers rest := by
  obtain ⟨t, run, rfl⟩ := List.exists_cons_of_ne_nil hr
  exact (h t _ hs).suffix (show run ++ rest = run ++ rest from rfl)

theorem CoversBehind.behind (h : chart.CoversBehind us) (hL : [] ∉ L) (hs : us = run ++ rest)
    (hr : run ∈ L) : chart.Covers rest :=
  h.suffix hs fun h => hL (h ▸ hr)

theorem nil_not_mem_single : [] ∉ single test := by
  rintro ⟨t, h, -⟩
  cases h

theorem single_nonempty {x : Terminal} (hx : test x) : ∃ ts, ts ∈ single test :=
  ⟨[⟨x, "", 0⟩], _, rfl, hx⟩

theorem mul_nonempty (hL : ∃ ts, ts ∈ L) (hM : ∃ ts, ts ∈ M) : ∃ ts, ts ∈ L * M := by
  obtain ⟨a, ha⟩ := hL
  obtain ⟨b, hb⟩ := hM
  exact ⟨a ++ b, Language.append_mem_mul ha hb⟩

theorem add_one_nonempty : ∃ ts, ts ∈ L + 1 := ⟨[], .inr rfl⟩

theorem expr_nonempty : ∃ ts, ts ∈ (Category.tier 0).runs := runs_nonempty (by rintro k ⟨⟩; omega)

theorem covers_tokenIf {x : Terminal} (hx : test x) (hh : head = us.head?) :
    (tokenIf test head us.length).Covers (single test) us := by
  subst hh
  have hfail (h : ∀ t ∈ us.head?, test t.terminal = false) :
      (Parses.fail us.length : Parses Token).Covers (single test) us := by
    refine Parses.covers_fail (single_nonempty hx) nil_not_mem_single ?_
    rintro t ht ts ⟨u, hu, htest⟩
    cases hu
    rw [h t ht] at htest
    cases htest
  cases us with
  | nil => exact hfail (by simp)
  | cons t us =>
    simp only [tokenIf, List.head?_cons]
    split
    · next ht =>
      refine Parses.covers_done.cons ⟨[], rfl⟩ nil_not_mem_single fun ts => ?_
      rw [mem_single, Language.mem_one]
      simp [ht]
    · next ht => exact hfail (by simpa using ht)

theorem covers_token {x : Terminal} (hx : test x) (hc : chart.Covers us) :
    (chart.token test us.length).Covers (single test) us :=
  covers_tokenIf hx hc.row.head

theorem covers_sign {s : Sign} (hc : chart.Covers us) :
    (chart.sign s us.length).Covers (single (· = .sign s)) us :=
  covers_token (decide_eq_true rfl) hc

theorem covers_word {w : Word} (hc : chart.Covers us) :
    (chart.word w us.length).Covers (single (· = .word w)) us :=
  covers_token (decide_eq_true rfl) hc

theorem covers_tier (hc : chart.Covers us) (hk : k ≤ unaryTier) :
    (chart.tier k us.length).Covers (Category.tier k).runs us := by
  obtain ⟨p, hp, h⟩ := hc.row.tiers k hk
  rwa [tier, hp]

theorem covers_chain (hc : chart.Covers us) (hk : k < unaryTier) :
    (chart.chain k us.length).Covers (Category.tier k).runs us := by
  obtain ⟨p, hp, h⟩ := hc.row.chains k hk
  rwa [chain, hp]

theorem covers_expression (hc : chart.Covers us) :
    (chart.expression us.length).Covers (Category.tier 0).runs us := covers_tier hc (Nat.zero_le _)

theorem covers_enclosed {closing : Sign} (hc : chart.Covers us) :
    (chart.enclosed closing us.length).Covers (enclosedRuns closing) us := by
  rw [enclosedRuns, arguments_runs, add_mul, one_mul]
  refine .orElse (hc.row.entries.andThen (single_nonempty (decide_eq_true rfl)) ?_)
    (covers_sign hc).map
  exact fun run rest _ hs _ => (covers_sign (hc.suffix hs)).map

theorem enclosed_nonempty {closing : Sign} : ∃ ts, ts ∈ enclosedRuns closing :=
  mul_nonempty (runs_nonempty (by rintro k ⟨⟩)) (single_nonempty (decide_eq_true rfl))

theorem covers_arguments (hc : chart.Covers us) :
    (chart.arguments us.length).Covers argumentsRuns us :=
  (covers_sign hc).andThen enclosed_nonempty fun _ _ _ hs _ => covers_enclosed (hc.suffix hs)

theorem sections_nonempty : ∃ ts, ts ∈ sectionsRuns :=
  mul_nonempty (runs_nonempty (by rintro k ⟨⟩)) (runs_nonempty (by rintro k ⟨⟩))

theorem covers_doBlock (hc : chart.Covers us) :
    (chart.doBlock us.length).Covers doBlockRuns us :=
  (covers_word hc).andThen sections_nonempty fun _ _ _ hs _ => (hc.suffix hs).row.sections.map

theorem doBlock_nonempty : ∃ ts, ts ∈ doBlockRuns :=
  mul_nonempty (single_nonempty (decide_eq_true rfl)) sections_nonempty

theorem covers_named {name : Token} (hc : chart.Covers us) :
    (chart.named us.length name).Covers namedRuns us := by
  refine .orElse (.orElse (.orElse ?_ (covers_doBlock hc).map) (covers_arguments hc).map)
    Parses.covers_done
  exact hc.row.entries.andThen doBlock_nonempty
    fun run rest _ hs _ => (covers_doBlock (hc.suffix hs)).map

theorem covers_primary (hc : chart.Covers us) :
    (chart.primary us.length t).Covers Category.primary.runs (t :: us) := by
  have hnil := nil_not_mem_runs (c := .primary) rfl
  unfold primary
  split
  · next ht =>
    exact (covers_named hc).cons add_one_nonempty hnil fun ts => cons_mem_primary_name ht
  · next ht =>
    exact Parses.covers_done.cons ⟨[], rfl⟩ hnil fun ts => cons_mem_primary_modulePath ht
  · next ht =>
    refine (covers_token (x := .name) (decide_eq_true rfl) hc).map.cons ?_ hnil fun ts =>
      cons_mem_primary_atSign ht
    exact single_nonempty (x := .name) (decide_eq_true rfl)
  · next ht =>
    have hclosing : ∃ ts, ts ∈ single (· = .sign .rightParen) :=
      single_nonempty (decide_eq_true rfl)
    refine Parses.Covers.cons (M := (Category.tier 0).runs * single (· = .sign .rightParen)) ?_
      (mul_nonempty expr_nonempty hclosing) hnil fun ts => cons_mem_primary_leftParen ht
    exact (covers_expression hc).andThen hclosing
      fun run rest _ hs _ => (covers_sign (hc.suffix hs)).map
  · next ht =>
    exact (covers_enclosed hc).map.cons enclosed_nonempty hnil fun ts =>
      cons_mem_primary_leftBracket ht
  · next ht =>
    exact (covers_enclosed hc).map.cons enclosed_nonempty hnil fun ts =>
      cons_mem_primary_leftBrace ht
  · split
    · next ht =>
      exact Parses.covers_done.cons ⟨[], rfl⟩ hnil fun ts => cons_mem_primary_literal ht
    · next hname hpath hat hparen hbracket hbrace ht =>
      rw [← List.length_cons]
      refine Parses.covers_fail (runs_nonempty (by rintro k ⟨⟩)) hnil ?_
      intro u hu ts hm
      cases hu
      have := startsPrimary_of_mem hm
      simp_all [Terminal.startsPrimary]

theorem trailers_nonempty : ∃ ts, ts ∈ trailerRuns∗ := ⟨[], Language.nil_mem_kstar _⟩

theorem covers_trailers (hc : chart.CoversBehind us) (hh : head = us.head?) :
    (chart.trailers us.length head).Covers trailerRuns∗ us := by
  rw [← Language.one_add_self_mul_kstar_eq_kstar, add_comm, trailerRuns, add_mul]
  refine .orElse (.orElse ?_ ?_) Parses.covers_done
  · rw [mul_assoc, mul_assoc, add_mul, one_mul]
    have hmore : ∃ ts, ts ∈ argumentsRuns * trailerRuns∗ + trailerRuns∗ :=
      trailers_nonempty.imp fun _ => .inr
    have hname : ∃ ts, ts ∈ single (· = .name) := single_nonempty (x := .name) (decide_eq_true rfl)
    refine (covers_tokenIf (x := .sign .dot) (decide_eq_true rfl) hh).andThen
      (mul_nonempty hname hmore) fun run rest dot hs hr => ?_
    have hc := hc.behind nil_not_mem_single hs hr
    refine (covers_token (x := .name) (decide_eq_true rfl) hc).andThen hmore
      fun run rest name hs _ => ?_
    have hc := hc.suffix hs
    exact .orElse ((covers_arguments hc).andThen trailers_nonempty
      fun run rest args hs _ => (hc.suffix hs).row.trailers.map) hc.row.trailers.map
  · rw [mul_assoc, mul_assoc]
    have hclosing : ∃ ts, ts ∈ single (· = .sign .rightBracket) * trailerRuns∗ :=
      mul_nonempty (single_nonempty (decide_eq_true rfl)) trailers_nonempty
    refine (covers_tokenIf (x := .sign .leftBracket) (decide_eq_true rfl) hh).andThen
      (mul_nonempty expr_nonempty hclosing) fun run rest opening hs hr => ?_
    have hc := hc.behind nil_not_mem_single hs hr
    refine (covers_expression hc).andThen hclosing fun run rest key hs _ => ?_
    have hc := hc.suffix hs
    exact (covers_sign hc).andThen trailers_nonempty
      fun run rest closing hs _ => (hc.suffix hs).row.trailers.map

theorem exists_tier?_eq (hk : k < unaryTier) : ∃ x : Terminal, x.tier? = some k := by
  have : ∀ k < unaryTier, ∃ s : Sign, (Terminal.sign s).tier? = some k ∨
      ∃ w : Word, (Terminal.word w).tier? = some k := by
    intro k hk
    unfold unaryTier at hk
    interval_cases k
    · exact ⟨.leftArrow, .inl rfl⟩
    · exact ⟨.binds, .inl rfl⟩
    · exact ⟨.pipe, .inl rfl⟩
    · exact ⟨.orOr, .inl rfl⟩
    · exact ⟨.andAnd, .inl rfl⟩
    · exact ⟨.equal, .inl rfl⟩
    · exact ⟨.less, .inl rfl⟩
    · exact ⟨.less, .inr ⟨.inWord, rfl⟩⟩
    · exact ⟨.concat, .inl rfl⟩
    · exact ⟨.plus, .inl rfl⟩
    · exact ⟨.star, .inl rfl⟩
  obtain ⟨s, h | ⟨w, h⟩⟩ := this k hk
  · exact ⟨_, h⟩
  · exact ⟨_, h⟩

theorem covers_chainFrom {tighter : Parses Phrase} (hc : chart.CoversBehind us)
    (hk : k < unaryTier) (ht : tighter.Covers (Category.tier (k + 1)).runs us) :
    (chart.chainFrom k tighter).Covers (Category.tier k).runs us := by
  have hrest : ∃ ts, ts ∈ (Category.tier (restTier k)).runs := by
    refine runs_nonempty ?_
    rintro _ ⟨⟩
    unfold restTier
    split <;> omega
  rw [tier_runs hk]
  refine ht.andThen add_one_nonempty fun run rest operand hs hr => ?_
  have hc := hc.behind (nil_not_mem_runs rfl) hs hr
  obtain ⟨x, hx⟩ := exists_tier?_eq hk
  refine .orElse ?_ Parses.covers_done
  refine (covers_token (x := x) (decide_eq_true hx) hc).andThen hrest fun run rest op hs _ => ?_
  have hc := hc.suffix hs
  unfold restTier
  cases assoc k with
  | single => exact (covers_tier hc hk).map
  | left | right => exact (covers_chain hc hk).map

theorem covers_ladder {unary : Parses Phrase} (hc : chart.CoversBehind us)
    (hu : unary.Covers (Category.tier unaryTier).runs us) (n : Nat) (hn : n ≤ unaryTier) :
    (∀ i < n, ∃ p, (chart.ladder unary n).1[i]? = some p ∧
      p.Covers (Category.tier (unaryTier - n + i)).runs us) ∧
    ∀ i ≤ n, ∃ p, (chart.ladder unary n).2[i]? = some p ∧
      p.Covers (Category.tier (unaryTier - n + i)).runs us := by
  induction n with
  | zero =>
    refine ⟨fun i hi => absurd hi (Nat.not_lt_zero i), fun i hi => ?_⟩
    obtain rfl := Nat.le_zero.1 hi
    exact ⟨unary, rfl, hu⟩
  | succ n ih =>
    obtain ⟨hchains, htiers⟩ := ih (by omega)
    have hk : unaryTier - (n + 1) + 1 = unaryTier - n := by omega
    have hchain : (chart.chainFrom (unaryTier - (n + 1))
        ((chart.ladder unary n).2.headD (.fail 0))).Covers
          (Category.tier (unaryTier - (n + 1))).runs us := by
      refine covers_chainFrom hc (by omega) ?_
      obtain ⟨p, hp, h⟩ := htiers 0 (Nat.zero_le _)
      rw [List.headD_eq_head?_getD, List.head?_eq_getElem?, hp, hk]
      exact h
    have hnext (i : Nat) : unaryTier - (n + 1) + (i + 1) = unaryTier - n + i := by omega
    refine ⟨fun i hi => ?_, fun i hi => ?_⟩
    · cases i with
      | zero => exact ⟨_, rfl, hchain⟩
      | succ i =>
        rw [hnext]
        exact hchains i (by omega)
    · cases i with
      | zero => exact ⟨_, rfl, hchain.map⟩
      | succ i =>
        rw [hnext]
        exact htiers i (by omega)

theorem covers_finish {body : Phrase} (hc : chart.CoversBehind us) (hh : head = us.head?) :
    (chart.finish us.length head body).Covers Category.parts.runs us := by
  rw [parts_runs]
  refine .orElse (covers_tokenIf (x := .word .endWord) (decide_eq_true rfl) hh).map ?_
  refine (covers_tokenIf (x := .word .elseWord) rfl hh).andThen sections_nonempty
    fun run rest label hs hr => ?_
  exact (hc.behind nil_not_mem_single hs hr).row.sections.map

theorem covers_separated {more : Row → Parses α} (hL : ∃ ts, ts ∈ L) (hc : chart.CoversBehind us)
    (hh : head = us.head?) (hm : ∀ row rest, row.Covers rest → (more row).Covers L rest) :
    (chart.separated us.length head more).Covers (gapRuns * L) us :=
  (covers_tokenIf (x := .sign .semicolon) (decide_eq_true rfl) hh).andThen hL
    fun _ _ _ hs hr => hm _ _ (hc.behind nil_not_mem_single hs hr).row

section

variable {item : Parses Phrase} {more : Row → Parses (List Phrase)}

theorem covers_several (hc : chart.CoversBehind us) (hL : [] ∉ L) (hM : ∃ ts, ts ∈ M)
    (hi : item.Covers L us) (hm : ∀ row rest, row.Covers rest → (more row).Covers M rest) :
    (chart.several item more).Covers (L * (commaRuns * M)) us := by
  refine hi.andThen (mul_nonempty (single_nonempty (decide_eq_true rfl)) hM)
    fun run rest x hs hr => ?_
  have hc := hc.behind hL hs hr
  exact (covers_sign hc).andThen hM fun run rest comma hs _ => (hm _ _ (hc.suffix hs).row).map

theorem covers_commaList (hs : (chart.several item more).Covers (L * (commaRuns * M)) us)
    (hi : item.Covers L us) : (chart.commaList item more).Covers (L * (commaRuns * M + 1)) us := by
  rw [mul_add, mul_one]
  exact hs.orElse hi.map

theorem covers_afterComma (hs : (chart.several item more).Covers (L * (commaRuns * M)) us)
    (hi : item.Covers L us) :
    (chart.afterComma item more).Covers (L * (commaRuns * M + 1)) us := by
  rw [mul_add, mul_one, add_comm]
  exact hi.map.orElse hs

end

theorem covers_operand (hc : chart.CoversBehind us) (hh : head = us.head?) :
    (chart.operand us.length head).Covers Category.operand.runs us := by
  subst hh
  rw [operand_runs]
  cases us with
  | nil =>
    change Parses.Covers _ [] (.fail ([] : List Token).length)
    refine Parses.covers_fail (mul_nonempty ?_ trailers_nonempty) ?_ (by simp)
    · exact runs_nonempty (by rintro k ⟨⟩)
    · rintro ⟨a, ha, b, -, h⟩
      obtain ⟨rfl, -⟩ := List.append_eq_nil_iff.1 h
      exact nil_not_mem_runs rfl ha
  | cons t us =>
    simp only [operand, List.head?_cons, List.length_cons, Nat.add_sub_cancel]
    exact (covers_primary (hc t us rfl)).andThen trailers_nonempty
      fun run rest p hs hr => (hc.behind (nil_not_mem_runs rfl) hs hr).row.trailers.map

theorem covers_unary (hc : chart.CoversBehind us) (hh : head = us.head?) :
    (chart.unary us.length head).Covers (Category.tier unaryTier).runs us := by
  have hM : ∃ ts, ts ∈ (Category.tier unaryTier).runs :=
    runs_nonempty fun k hk => by cases hk; exact Nat.le_refl _
  rw [unary_runs]
  refine .orElse ?_ (covers_operand hc hh)
  exact (covers_tokenIf (x := .sign .bang) rfl hh).andThen hM fun run rest op hs hr =>
    (covers_tier (hc.behind nil_not_mem_single hs hr) (Nat.le_refl _)).map

theorem covers_entry {expression : Parses Phrase} (hc : chart.CoversBehind us)
    (hh : head = us.head?) (he : expression.Covers (Category.tier 0).runs us) :
    (chart.entry us.length head expression).Covers Category.entry.runs us := by
  rw [entry_runs]
  refine .orElse he ?_
  exact (covers_tokenIf (x := .key) (decide_eq_true rfl) hh).andThen expr_nonempty
    fun run rest key hs hr => (covers_expression (hc.behind nil_not_mem_single hs hr)).map

theorem more_nonempty : ∃ ts, ts ∈ moreRuns := by
  rw [more_runs]
  exact add_one_nonempty

theorem covers_statementsFrom {expression : Parses Phrase} (hc : chart.CoversBehind us)
    (he : expression.Covers (Category.tier 0).runs us) :
    (chart.statementsFrom expression).Covers Category.statements.runs us := by
  rw [statements_runs]
  exact he.andThen more_nonempty fun run rest s hs hr =>
    (hc.behind (nil_not_mem_runs rfl) hs hr).row.moreStatements.map

theorem clauseBody_nonempty : ∃ ts, ts ∈ clauseBodyRuns := by
  rw [clauseBody_runs]
  exact add_one_nonempty

theorem covers_clausesFrom {patterns : Parses (List Phrase)} (hc : chart.CoversBehind us)
    (hp : patterns.Covers Category.patterns.runs us) :
    (chart.clausesFrom patterns).Covers Category.clauses.runs us := by
  rw [clauses_runs]
  refine hp.andThen (mul_nonempty (single_nonempty (decide_eq_true rfl)) clauseBody_nonempty)
    fun run rest ps hs hr => ?_
  have hc := hc.behind (nil_not_mem_runs rfl) hs hr
  exact (covers_sign hc).andThen clauseBody_nonempty
    fun run rest arrow hs _ => (hc.suffix hs).row.clauseBody.map

theorem covers_clauseBodyFrom {statements clauses : Parses (List Phrase)}
    (hc : chart.CoversBehind us) (hh : head = us.head?)
    (hs : statements.Covers Category.statements.runs us)
    (hcl : clauses.Covers Category.clauses.runs us) :
    (chart.clauseBodyFrom us.length head statements clauses).Covers clauseBodyRuns us := by
  rw [clauseBody_runs]
  refine .orElse (.orElse (.orElse ?_ ?_) hcl.map) Parses.covers_done
  · exact covers_separated clauseBody_nonempty hc hh fun _ _ h => h.clauseBody
  · exact hs.andThen add_one_nonempty fun run rest body hs hr =>
      .orElse (hc.behind (nil_not_mem_runs rfl) hs hr).row.clauses.map Parses.covers_done

theorem covers_sectionsFrom {statements clauses : Parses (List Phrase)}
    (hc : chart.CoversBehind us) (hh : head = us.head?)
    (hs : statements.Covers Category.statements.runs us)
    (hcl : clauses.Covers Category.clauses.runs us) :
    (chart.sectionsFrom us.length head statements clauses).Covers sectionsRuns us := by
  rw [sections_runs]
  refine .orElse (.orElse ?_ ?_) (covers_finish hc hh)
  · exact covers_separated sections_nonempty hc hh fun _ _ h => h.sections
  · have hnil : [] ∉ Category.statements.runs + Category.clauses.runs := by
      rintro (h | h) <;> exact nil_not_mem_runs rfl h
    refine (hs.map.orElse hcl.map).andThen (runs_nonempty (by rintro k ⟨⟩))
      fun run rest body hs hr => ?_
    have hc := hc.behind hnil hs hr
    exact covers_finish hc.behind hc.row.head

theorem covers_before (hc : chart.CoversBehind us) (hh : head = us.head?)
    (hl : chart.size = us.length) : (chart.before head).Covers us := by
  have hladder := covers_ladder hc (covers_unary hc hh) unaryTier (Nat.le_refl _)
  rw [before, hl]
  generalize chart.ladder (chart.unary us.length head) unaryTier = ladder at hladder ⊢
  obtain ⟨chains, tiers⟩ := ladder
  obtain ⟨hchains, htiers⟩ := hladder
  simp only [Nat.sub_self, Nat.zero_add] at hchains htiers
  have he : (tiers.headD (.fail us.length)).Covers (Category.tier 0).runs us := by
    obtain ⟨p, hp, h⟩ := htiers 0 (Nat.zero_le _)
    rwa [List.headD_eq_head?_getD, List.head?_eq_getElem?, hp]
  have hs := covers_statementsFrom hc he
  have hn := covers_entry hc hh he
  have hentries := covers_several hc (nil_not_mem_runs rfl) (runs_nonempty (by rintro k ⟨⟩)) hn
    fun _ _ h => h.moreEntries
  have hpatterns := covers_several hc (nil_not_mem_runs rfl) (runs_nonempty (by rintro k ⟨⟩)) he
    fun _ _ h => h.morePatterns
  have hp : (chart.commaList (tiers.headD (.fail us.length)) Row.morePatterns).Covers
      Category.patterns.runs us := by
    rw [patterns_runs]
    exact covers_commaList hpatterns he
  have hcl := covers_clausesFrom hc hp
  exact {
    head := hh
    tiers := htiers
    chains := hchains
    trailers := covers_trailers hc hh
    entries := by
      rw [entries_runs]
      exact covers_commaList hentries hn
    moreEntries := by
      rw [entries_runs]
      exact covers_afterComma hentries hn
    statements := hs
    moreStatements := by
      rw [more_runs]
      refine .orElse (covers_separated (more_nonempty.imp fun _ => .inr) hc hh ?_)
        Parses.covers_done
      exact fun row rest h => h.statements.orElse h.moreStatements
    morePatterns := by
      rw [patterns_runs]
      exact covers_afterComma hpatterns he
    clauses := hcl
    clauseBody := covers_clauseBodyFrom hc hh hs hcl
    sections := covers_sectionsFrom hc hh hs hcl
    program := by
      rw [program_runs]
      refine .orElse (.orElse ?_ hs.map) Parses.covers_done
      exact covers_separated (runs_nonempty (by rintro k ⟨⟩)) hc hh fun _ _ h => h.program }

theorem covers_ofTokens (ts : List Token) : (ofTokens ts).Covers ts := by
  induction ts with
  | nil =>
    rintro run rest h
    obtain ⟨rfl, rfl⟩ := List.append_eq_nil_iff.1 h.symm
    exact covers_before (fun t rest h => by cases h) rfl rfl
  | cons t ts ih =>
    rintro run rest h
    cases run with
    | nil =>
      obtain rfl : t :: ts = rest := h
      rw [row_ofTokens_first]
      refine covers_before ?_ rfl (size_ofTokens ts)
      rintro _ _ ⟨⟩
      exact ih
    | cons r run =>
      obtain ⟨rfl, hts⟩ := List.cons.inj h
      rw [row_ofTokens_later hts]
      exact ih run rest hts

end Chart

namespace Phrase

variable {ts : List Token}

/-- Tokens are read as a program exactly if the grammar derives them. -/
theorem ofTokens_eq_ok_iff : (∃ p, ofTokens ts = .ok p) ↔ ∃ ps, Derives .program ts ps := by
  have h := (Chart.covers_ofTokens ts).row.program.ends ts [] (List.append_nil ts).symm
  rw [mem_runs] at h
  rw [← h]
  unfold ofTokens Parses.complete?
  dsimp only
  generalize ((Chart.ofTokens ts).row ts.length).program = readings
  constructor
  · rintro ⟨p, hp⟩
    split at hp
    · next q hq =>
      obtain ⟨⟨left, a⟩, ha, rfl⟩ := Option.map_eq_some_iff.1 hq
      obtain rfl : left = 0 := by simpa using List.find?_some ha
      exact ⟨a, List.mem_of_find?_eq_some ha⟩
    · cases hp
  · rintro ⟨a, ha⟩
    have hs : (readings.results.find? fun r => r.1 = 0).isSome := by
      rw [List.find?_isSome]
      exact ⟨_, ha, decide_eq_true rfl⟩
    obtain ⟨r, hr⟩ := Option.isSome_iff_exists.1 hs
    exact ⟨r.2, by rw [hr]; rfl⟩

theorem viable_iff_mem_starts {us : List Token} : Viable us ↔ us ∈ starts Category.program.runs :=
  Iff.rfl

/-- Tokens that are no program are left from the first one on that no program has there. -/
theorem ofTokens_eq_error {left : Nat} (h : ofTokens ts = .error left) :
    ∀ us rest, ts = us ++ rest → (Viable us ↔ left ≤ rest.length) := by
  intro us rest hs
  have hreach := (Chart.covers_ofTokens ts).row.program.reach us rest hs
  rw [viable_iff_mem_starts, ← hreach]
  unfold ofTokens at h
  dsimp only at h
  split at h
  · cases h
  · cases h
    rfl

end Phrase

end EmbeddedTemplate.Code
