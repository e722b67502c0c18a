import EmbeddedTemplate.Proofs.Code.Lines
import Mathlib.Computability.Language
import Mathlib.Order.CompletePartialOrder

/-!
The grammar as equations between languages: the runs of each category in terms of those of others,
in the form in which a reader goes through them from left to right.
-/

namespace EmbeddedTemplate.Code

open scoped Computability

def Category.runs (c : Category) : Language Token := {ts | ∃ ps, Derives c ts ps}

def single (test : Terminal → Bool) : Language Token := {ts | ∃ t, ts = [t] ∧ test t.terminal}

namespace Category

def isSingle : Category → Bool
  | .tier _ | .operand | .primary | .entry | .clause | .program | .body => true
  | _ => false

end Category

variable {c : Category} {k : Nat} {t : Token} {ts us rest : List Token} {ps : List Phrase}
variable {test : Terminal → Bool} {L M : Language Token}

theorem mem_runs : ts ∈ c.runs ↔ ∃ ps, Derives c ts ps := Iff.rfl

theorem mem_single : ts ∈ single test ↔ ∃ t, ts = [t] ∧ test t.terminal := Iff.rfl

theorem Derives.eq_singleton (h : Derives c ts ps) (hc : c.isSingle) : ∃ p, ps = [p] := by
  induction h <;> simp_all [Category.isSingle]

theorem mem_runs_single (hc : c.isSingle) : ts ∈ c.runs ↔ ∃ p, Derives c ts [p] := by
  refine ⟨?_, fun ⟨p, h⟩ => ⟨[p], h⟩⟩
  rintro ⟨ps, h⟩
  obtain ⟨p, rfl⟩ := h.eq_singleton hc
  exact ⟨p, h⟩

theorem cons_mem_single_mul : t :: ts ∈ single test * L ↔ test t.terminal ∧ ts ∈ L := by
  rw [Language.mem_mul]
  constructor
  · rintro ⟨_, ⟨u, rfl, hu⟩, us, hus, h⟩
    cases h
    exact ⟨hu, hus⟩
  · rintro ⟨ht, hts⟩
    exact ⟨[t], ⟨t, rfl, ht⟩, ts, hts, rfl⟩

theorem mem_single_mul :
    ts ∈ single test * L ↔ ∃ t us, ts = t :: us ∧ test t.terminal ∧ us ∈ L := by
  cases ts with
  | nil =>
    simp only [Language.mem_mul, List.append_eq_nil_iff]
    constructor
    · rintro ⟨_, ⟨t, rfl, -⟩, _, _, h, -⟩
      cases h
    · rintro ⟨_, _, h, -⟩
      cases h
  | cons t ts =>
    rw [cons_mem_single_mul]
    simp

def operators (k : Nat) : Language Token := single (·.tier? = some k)

/-- The tier of what stands right of an operator of a tier, if a run is read from the left. -/
def restTier (k : Nat) : Nat := if assoc k = .single then k + 1 else k

theorem binary_mem_runs (ha : assoc k = .left) (hts : ts ∈ (Category.tier k).runs)
    (ht : t.terminal.tier? = some k) (hus : us ∈ (Category.tier k).runs) :
    ts ++ t :: us ∈ (Category.tier k).runs := by
  obtain ⟨ps, hq⟩ := hus
  generalize hc : Category.tier k = c at hq
  induction hq generalizing ts t with
  | tighter h hk _ =>
    cases hc
    obtain ⟨p, hp⟩ := (mem_runs_single rfl).1 hts
    obtain ⟨q, rfl⟩ := h.eq_singleton rfl
    exact ⟨_, .binary (by rwa [ha]) ht (by rwa [ha])⟩
  | @binary k' left p' op right q' hl ho hr ihl ihr =>
    cases hc
    rw [ha] at hr ihl
    obtain ⟨r, hr'⟩ := (mem_runs_single rfl).1 (ihl hts ht rfl)
    rw [← List.cons_append, ← List.append_assoc]
    exact ⟨_, .binary (by rwa [ha]) ho (by rwa [ha])⟩
  | unary _ _ _ | operand _ _ =>
    cases hc
    exact absurd (Terminal.tier?_lt ht) (Nat.lt_irrefl _)
  | _ => cases hc

theorem tier_runs (hk : k < unaryTier) : (Category.tier k).runs =
    (Category.tier (k + 1)).runs * (operators k * (Category.tier (restTier k)).runs + 1) := by
  ext ts
  constructor
  · rintro ⟨ps, h⟩
    generalize hc : Category.tier k = c at h
    induction h with
    | tighter h _ _ =>
      cases hc
      exact ⟨_, ⟨_, h⟩, [], .inr rfl, List.append_nil _⟩
    | @binary k' left p op right q hl ho hr ihl _ =>
      cases hc
      cases ha : assoc k with
      | left =>
        rw [ha] at ihl hr
        rw [restTier, ha] at ihl ⊢
        -- The operator goes to the end of the rest, behind the first operand.
        obtain ⟨a, hm, b, hb, rfl⟩ := ihl rfl
        obtain hb | rfl := hb
        · obtain ⟨op', us, rfl, ho', hus⟩ := mem_single_mul.1 hb
          refine ⟨a, hm, op' :: (us ++ op :: right), .inl ?_, by simp⟩
          refine cons_mem_single_mul.2 ⟨ho', binary_mem_runs ha hus ho ⟨_, .tighter hr hk⟩⟩
        · refine ⟨a, hm, op :: right, .inl ?_, by simp⟩
          exact cons_mem_single_mul.2 ⟨by simpa using ho, _, .tighter hr hk⟩
      | right | single =>
        rw [ha] at hl hr
        rw [restTier, ha]
        exact ⟨left, ⟨_, hl⟩, op :: right,
          .inl (cons_mem_single_mul.2 ⟨by simpa using ho, _, hr⟩), rfl⟩
    | unary _ _ _ | operand _ _ =>
      cases hc
      exact absurd hk (Nat.lt_irrefl _)
    | _ => cases hc
  · rintro ⟨a, ha, b, hb | rfl, rfl⟩
    · obtain ⟨op, us, rfl, ho, hus⟩ := mem_single_mul.1 hb
      obtain ⟨p, hp⟩ := (mem_runs_single rfl).1 ha
      obtain ⟨q, hq⟩ := (mem_runs_single rfl).1 hus
      simp only [decide_eq_true_eq] at ho
      cases hassoc : assoc k with
      | left =>
        rw [restTier, hassoc] at hus
        exact binary_mem_runs hassoc ⟨_, .tighter hp hk⟩ ho hus
      | right | single =>
        rw [restTier, hassoc] at hq
        exact ⟨_, .binary (by rwa [hassoc]) ho (by rwa [hassoc])⟩
    · obtain ⟨ps, hp⟩ := ha
      exact ⟨ps, by simpa using Derives.tighter hp hk⟩

theorem unary_runs : (Category.tier unaryTier).runs =
    single Terminal.isUnary * (Category.tier unaryTier).runs + Category.operand.runs := by
  ext ts
  constructor
  · rintro ⟨ps, h⟩
    generalize hc : Category.tier unaryTier = c at h
    cases h with
    | tighter _ hk =>
      cases hc
      exact absurd hk (Nat.lt_irrefl _)
    | binary _ ho _ =>
      cases hc
      exact absurd (Terminal.tier?_lt ho) (Nat.lt_irrefl _)
    | unary ho h => exact .inl (cons_mem_single_mul.2 ⟨ho, _, h⟩)
    | operand h => exact .inr ⟨_, h⟩
    | _ => cases hc
  · rintro (h | ⟨ps, h⟩)
    · obtain ⟨op, us, rfl, ho, hus⟩ := mem_single_mul.1 h
      obtain ⟨p, hp⟩ := (mem_runs_single rfl).1 hus
      exact ⟨_, .unary ho hp⟩
    · exact ⟨ps, .operand h⟩

def enclosedRuns (closing : Sign) : Language Token :=
  Category.arguments.runs * single (· = .sign closing)

def argumentsRuns : Language Token := single (· = .sign .leftParen) * enclosedRuns .rightParen

def trailerRuns : Language Token :=
  single (· = .sign .dot) * (single (· = .name) * (argumentsRuns + 1)) +
    single (· = .sign .leftBracket) *
      ((Category.tier 0).runs * single (· = .sign .rightBracket))

def doBlockRuns : Language Token :=
  single (· = .word .doWord) * (Category.body.runs * Category.parts.runs)

theorem arguments_runs : Category.arguments.runs = Category.entries.runs + 1 := by
  ext ts
  constructor
  · rintro ⟨ps, h⟩
    cases h with
    | noArguments => exact .inr rfl
    | someArguments h => exact .inl ⟨_, h⟩
  · rintro (⟨ps, h⟩ | rfl)
    · exact ⟨ps, .someArguments h⟩
    · exact ⟨_, .noArguments⟩

theorem operand_mul_trailer_le : Category.operand.runs * trailerRuns ≤ Category.operand.runs := by
  rintro _ ⟨a, ha, b, hb | hb, rfl⟩
  all_goals obtain ⟨p, hp⟩ := (mem_runs_single rfl).1 ha
  · obtain ⟨dot, us, rfl, hd, hus⟩ := mem_single_mul.1 hb
    obtain ⟨name, vs, rfl, hn, hvs⟩ := mem_single_mul.1 hus
    simp only [decide_eq_true_eq] at hd hn
    obtain hvs | rfl := hvs
    · obtain ⟨opening, us, rfl, ho, inner, ⟨args, hi⟩, _, ⟨closing, rfl, hc⟩, rfl⟩ :=
        mem_single_mul.1 hvs
      simp only [decide_eq_true_eq] at ho hc
      have := Derives.remoteCall hp hd hn ho hi hc
      exact ⟨_, by simpa using this⟩
    · exact ⟨_, .field hp hd hn⟩
  · obtain ⟨opening, us, rfl, ho, inner, hi, _, ⟨closing, rfl, hc⟩, rfl⟩ := mem_single_mul.1 hb
    obtain ⟨q, hq⟩ := (mem_runs_single rfl).1 hi
    simp only [decide_eq_true_eq] at ho hc
    have := Derives.access hp ho hq hc
    exact ⟨_, by simpa using this⟩

theorem operand_runs : Category.operand.runs = Category.primary.runs * trailerRuns∗ := by
  have happend {ts us : List Token} (hts : ts ∈ Category.primary.runs * trailerRuns∗)
      (hus : us ∈ trailerRuns) : ts ++ us ∈ Category.primary.runs * trailerRuns∗ := by
    obtain ⟨a, ha, b, hb, rfl⟩ := hts
    rw [List.append_assoc, ← Language.one_add_kstar_mul_self_eq_kstar]
    exact Language.append_mem_mul ha (.inr (Language.append_mem_mul hb hus))
  refine le_antisymm ?_ (mul_kstar_le ?_ operand_mul_trailer_le)
  · rintro ts ⟨ps, h⟩
    generalize hc : Category.operand = c at h
    induction h with
    | primary h _ => exact ⟨_, ⟨_, h⟩, [], Language.nil_mem_kstar _, List.append_nil _⟩
    | remoteCall _ hd hn ho hi hcl ih _ =>
      rw [List.append_assoc]
      refine happend (ih hc) (.inl ?_)
      refine cons_mem_single_mul.2 ⟨by simpa using hd, ?_⟩
      refine cons_mem_single_mul.2 ⟨by simpa using hn, ?_⟩
      refine .inl (cons_mem_single_mul.2 ⟨by simpa using ho, _, ⟨_, hi⟩, _, ⟨_, rfl, ?_⟩, rfl⟩)
      simpa using hcl
    | field _ hd hn ih =>
      refine happend (ih hc) (.inl ?_)
      refine cons_mem_single_mul.2 ⟨by simpa using hd, ?_⟩
      exact cons_mem_single_mul.2 ⟨by simpa using hn, .inr rfl⟩
    | access _ ho hi hcl ih _ =>
      rw [List.append_assoc]
      refine happend (ih hc) (.inr ?_)
      refine cons_mem_single_mul.2 ⟨by simpa using ho, _, ⟨_, hi⟩, _, ⟨_, rfl, ?_⟩, rfl⟩
      simpa using hcl
    | _ => cases hc
  · rintro ts ⟨ps, h⟩
    exact ⟨ps, .primary h⟩

def namedRuns : Language Token :=
  Category.entries.runs * doBlockRuns + doBlockRuns + argumentsRuns + 1

theorem mem_doBlockRuns : ts ∈ doBlockRuns ↔ ∃ opening body rest b parts,
    ts = opening :: (body ++ rest) ∧ opening.terminal = .word .doWord ∧
      Derives .body body [b] ∧ Derives .parts rest parts := by
  rw [doBlockRuns, mem_single_mul]
  constructor
  · rintro ⟨opening, us, rfl, ho, body, hb, rest, ⟨parts, hr⟩, rfl⟩
    obtain ⟨b, hb⟩ := (mem_runs_single rfl).1 hb
    exact ⟨opening, body, rest, b, parts, rfl, by simpa using ho, hb, hr⟩
  · rintro ⟨opening, body, rest, b, parts, rfl, ho, hb, hr⟩
    exact ⟨opening, _, rfl, by simpa using ho, body, ⟨_, hb⟩, rest, ⟨_, hr⟩, rfl⟩

theorem mem_enclosedRuns {closing : Sign} : ts ∈ enclosedRuns closing ↔
    ∃ inner t ps, ts = inner ++ [t] ∧ t.terminal = .sign closing ∧ Derives .arguments inner ps := by
  rw [enclosedRuns, Language.mem_mul]
  constructor
  · rintro ⟨inner, ⟨ps, hi⟩, _, ⟨t, rfl, ht⟩, rfl⟩
    exact ⟨inner, t, ps, rfl, by simpa using ht, hi⟩
  · rintro ⟨inner, t, ps, rfl, ht, hi⟩
    exact ⟨inner, ⟨ps, hi⟩, [t], ⟨t, rfl, by simpa using ht⟩, rfl⟩

theorem mem_argumentsRuns : ts ∈ argumentsRuns ↔ ∃ opening inner closing ps,
    ts = opening :: (inner ++ [closing]) ∧ opening.terminal = .sign .leftParen ∧
      closing.terminal = .sign .rightParen ∧ Derives .arguments inner ps := by
  rw [argumentsRuns, mem_single_mul]
  simp only [mem_enclosedRuns, decide_eq_true_eq]
  constructor
  · rintro ⟨opening, _, rfl, ho, inner, closing, ps, rfl, hc, hi⟩
    exact ⟨opening, inner, closing, ps, rfl, ho, hc, hi⟩
  · rintro ⟨opening, inner, closing, ps, rfl, ho, hc, hi⟩
    exact ⟨opening, _, rfl, ho, inner, closing, ps, rfl, hc, hi⟩

theorem cons_mem_primary_name (ht : t.terminal = .name) :
    t :: ts ∈ Category.primary.runs ↔ ts ∈ namedRuns := by
  constructor
  · rintro ⟨ps, h⟩
    cases h with
    | name _ => exact .inr rfl
    | call _ ho hi hc => exact .inl (.inr (mem_argumentsRuns.2 ⟨_, _, _, _, rfl, ho, hc, hi⟩))
    | @block _ inner args opening body b rest parts _ hi ho hb hp =>
      have hd : opening :: (body ++ rest) ∈ doBlockRuns :=
        mem_doBlockRuns.2 ⟨_, _, _, _, _, rfl, ho, hb, hp⟩
      cases hi with
      | noArguments => exact .inl (.inl (.inr hd))
      | someArguments hi =>
        change inner ++ opening :: body ++ rest ∈ _
        rw [List.append_assoc]
        exact .inl (.inl (.inl ⟨_, ⟨_, hi⟩, _, hd, rfl⟩))
    | _ => simp_all [Terminal.isLiteral]
  · rintro (((⟨inner, ⟨args, hi⟩, _, hd, rfl⟩ | hd) | ha) | rfl)
    · obtain ⟨opening, body, rest, b, parts, rfl, ho, hb, hp⟩ := mem_doBlockRuns.1 hd
      exact ⟨_, by simpa using Derives.block ht (.someArguments hi) ho hb hp⟩
    · obtain ⟨opening, body, rest, b, parts, rfl, ho, hb, hp⟩ := mem_doBlockRuns.1 hd
      exact ⟨_, by simpa using Derives.block ht .noArguments ho hb hp⟩
    · obtain ⟨opening, inner, closing, ps, rfl, ho, hc, hi⟩ := mem_argumentsRuns.1 ha
      exact ⟨_, .call ht ho hi hc⟩
    · exact ⟨_, .name ht⟩

theorem cons_mem_primary_modulePath (ht : t.terminal = .modulePath) :
    t :: ts ∈ Category.primary.runs ↔ ts = [] := by
  constructor
  · rintro ⟨ps, h⟩
    cases h <;> simp_all [Terminal.isLiteral]
  · rintro rfl
    exact ⟨_, .modulePath ht⟩

theorem cons_mem_primary_atSign (ht : t.terminal = .sign .atSign) :
    t :: ts ∈ Category.primary.runs ↔ ts ∈ single (· = .name) := by
  constructor
  · rintro ⟨ps, h⟩
    cases h with
    | assign _ hn => exact ⟨_, rfl, by simpa using hn⟩
    | _ => simp_all [Terminal.isLiteral]
  · rintro ⟨name, rfl, hn⟩
    exact ⟨_, .assign ht (by simpa using hn)⟩

theorem cons_mem_primary_leftParen (ht : t.terminal = .sign .leftParen) :
    t :: ts ∈ Category.primary.runs ↔
      ts ∈ (Category.tier 0).runs * single (· = .sign .rightParen) := by
  constructor
  · rintro ⟨ps, h⟩
    cases h with
    | parens _ hi hc => exact ⟨_, ⟨_, hi⟩, _, ⟨_, rfl, by simpa using hc⟩, rfl⟩
    | _ => simp_all [Terminal.isLiteral]
  · rintro ⟨inner, hi, _, ⟨closing, rfl, hc⟩, rfl⟩
    obtain ⟨p, hp⟩ := (mem_runs_single rfl).1 hi
    exact ⟨_, .parens ht hp (by simpa using hc)⟩

theorem cons_mem_primary_leftBracket (ht : t.terminal = .sign .leftBracket) :
    t :: ts ∈ Category.primary.runs ↔ ts ∈ enclosedRuns .rightBracket := by
  rw [mem_enclosedRuns]
  constructor
  · rintro ⟨ps, h⟩
    cases h with
    | list _ hi hc => exact ⟨_, _, _, rfl, hc, hi⟩
    | _ => simp_all [Terminal.isLiteral]
  · rintro ⟨inner, closing, ps, rfl, hc, hi⟩
    exact ⟨_, .list ht hi hc⟩

theorem cons_mem_primary_leftBrace (ht : t.terminal = .sign .leftBrace) :
    t :: ts ∈ Category.primary.runs ↔ ts ∈ enclosedRuns .rightBrace := by
  rw [mem_enclosedRuns]
  constructor
  · rintro ⟨ps, h⟩
    cases h with
    | tuple _ hi hc => exact ⟨_, _, _, rfl, hc, hi⟩
    | _ => simp_all [Terminal.isLiteral]
  · rintro ⟨inner, closing, ps, rfl, hc, hi⟩
    exact ⟨_, .tuple ht hi hc⟩

theorem cons_mem_primary_literal (ht : t.terminal.isLiteral) :
    t :: ts ∈ Category.primary.runs ↔ ts = [] := by
  constructor
  · rintro ⟨ps, h⟩
    cases h <;> simp_all [Terminal.isLiteral]
  · rintro rfl
    exact ⟨_, .literal ht⟩

def Terminal.startsPrimary (t : Terminal) : Bool :=
  t.isLiteral || t = .name || t = .modulePath || t = .sign .atSign || t = .sign .leftParen ||
    t = .sign .leftBracket || t = .sign .leftBrace

theorem startsPrimary_of_mem (h : t :: ts ∈ Category.primary.runs) :
    t.terminal.startsPrimary := by
  obtain ⟨ps, h⟩ := h
  cases h <;> simp_all [Terminal.startsPrimary]

def commaRuns : Language Token := single (· = .sign .comma)

theorem entry_runs : Category.entry.runs =
    (Category.tier 0).runs + single (· = .key) * (Category.tier 0).runs := by
  ext ts
  constructor
  · rintro ⟨ps, h⟩
    cases h with
    | expression h => exact .inl ⟨_, h⟩
    | keyword hk h => exact .inr (cons_mem_single_mul.2 ⟨by simpa using hk, _, h⟩)
  · rintro (⟨ps, h⟩ | h)
    · exact ⟨ps, .expression h⟩
    · obtain ⟨key, us, rfl, hk, hus⟩ := mem_single_mul.1 h
      obtain ⟨p, hp⟩ := (mem_runs_single rfl).1 hus
      exact ⟨_, .keyword (by simpa using hk) hp⟩

theorem entries_runs : Category.entries.runs =
    Category.entry.runs * (commaRuns * Category.entries.runs + 1) := by
  ext ts
  constructor
  · rintro ⟨ps, h⟩
    cases h with
    | lastEntry h => exact ⟨_, ⟨_, h⟩, [], .inr rfl, List.append_nil _⟩
    | moreEntries h hc hr =>
      exact ⟨_, ⟨_, h⟩, _, .inl (cons_mem_single_mul.2 ⟨by simpa using hc, _, hr⟩), rfl⟩
  · rintro ⟨a, ha, b, hb | rfl, rfl⟩
    · obtain ⟨comma, us, rfl, hc, qs, hq⟩ := mem_single_mul.1 hb
      obtain ⟨p, hp⟩ := (mem_runs_single rfl).1 ha
      exact ⟨_, .moreEntries hp (by simpa using hc) hq⟩
    · obtain ⟨ps, h⟩ := ha
      exact ⟨ps, by simpa using Derives.lastEntry h⟩

theorem patterns_runs : Category.patterns.runs =
    (Category.tier 0).runs * (commaRuns * Category.patterns.runs + 1) := by
  ext ts
  constructor
  · rintro ⟨ps, h⟩
    cases h with
    | lastPattern h => exact ⟨_, ⟨_, h⟩, [], .inr rfl, List.append_nil _⟩
    | morePatterns h hc hr =>
      exact ⟨_, ⟨_, h⟩, _, .inl (cons_mem_single_mul.2 ⟨by simpa using hc, _, hr⟩), rfl⟩
  · rintro ⟨a, ha, b, hb | rfl, rfl⟩
    · obtain ⟨comma, us, rfl, hc, qs, hq⟩ := mem_single_mul.1 hb
      obtain ⟨p, hp⟩ := (mem_runs_single rfl).1 ha
      exact ⟨_, .morePatterns hp (by simpa using hc) hq⟩
    · obtain ⟨ps, h⟩ := ha
      exact ⟨ps, by simpa using Derives.lastPattern h⟩

def gapRuns : Language Token := single (· = .sign .semicolon)

def moreRuns : Language Token := {ts | ∃ ps, Continues ts ps}

theorem more_runs : moreRuns = gapRuns * (Category.statements.runs + moreRuns) + 1 := by
  ext ts
  constructor
  · rintro ⟨ps, gap, us, rfl, hg, hs⟩
    cases gap with
    | nil =>
      obtain ⟨rfl, -⟩ | ⟨hne, -⟩ := hs
      · exact .inr rfl
      · exact absurd rfl hne
    | cons t gap =>
      obtain ⟨ht, hg⟩ := List.forall_mem_cons.1 hg
      refine .inl (cons_mem_single_mul.2 ⟨by simpa using ht, ?_⟩)
      obtain hs | ⟨-, hs⟩ := hs
      · exact .inr ⟨ps, gap, us, rfl, hg, .inl hs⟩
      · cases gap with
        | nil => exact .inl ⟨ps, hs⟩
        | cons u gap => exact .inr ⟨ps, u :: gap, us, rfl, hg, .inr ⟨by simp, hs⟩⟩
  · rintro (h | rfl)
    · obtain ⟨t, us, rfl, ht, ⟨ps, hs⟩ | ⟨ps, gap, vs, rfl, hg, hs⟩⟩ := mem_single_mul.1 h
      all_goals simp only [decide_eq_true_eq] at ht
      · exact ⟨ps, [t], us, rfl, by simp [Separators, ht], .inr ⟨by simp, hs⟩⟩
      · refine ⟨ps, t :: gap, vs, rfl, (separators_cons ht).2 hg, ?_⟩
        obtain hs | ⟨-, hs⟩ := hs
        · exact .inl hs
        · exact .inr ⟨by simp, hs⟩
    · exact ⟨[], [], [], rfl, separators_nil, .inl ⟨rfl, rfl⟩⟩

theorem statements_runs :
    Category.statements.runs = (Category.tier 0).runs * moreRuns := by
  ext ts
  constructor
  · rintro ⟨ps, h⟩
    cases h with
    | @lastStatement ts _ gap h hg =>
      exact ⟨ts, ⟨_, h⟩, gap, ⟨[], gap, [], by simp, hg, .inl ⟨rfl, rfl⟩⟩, rfl⟩
    | @moreStatements ts p gap us ps h hg hne hr =>
      refine ⟨ts, ⟨_, h⟩, gap ++ us, ⟨ps, gap, us, rfl, hg, .inr ⟨hne, hr⟩⟩, ?_⟩
      exact (List.append_assoc ..).symm
  · rintro ⟨a, ha, _, ⟨qs, gap, us, rfl, hg, hs⟩, rfl⟩
    obtain ⟨p, hp⟩ := (mem_runs_single rfl).1 ha
    obtain ⟨rfl, -⟩ | ⟨hne, hs⟩ := hs
    · exact ⟨_, by simpa using Derives.lastStatement hp hg⟩
    · exact ⟨_, by simpa using Derives.moreStatements hp hg hne hs⟩

theorem program_runs : Category.program.runs =
    gapRuns * Category.program.runs + Category.statements.runs + 1 := by
  ext ts
  constructor
  · rintro ⟨ps, h⟩
    cases h with
    | @noStatements gap hg =>
      cases ts with
      | nil => exact .inr rfl
      | cons t gap =>
        obtain ⟨ht, hg⟩ := List.forall_mem_cons.1 hg
        exact .inl (.inl (cons_mem_single_mul.2 ⟨by simpa using ht, _, .noStatements hg⟩))
    | @someStatements gap us ps hg hs =>
      cases gap with
      | nil => exact .inl (.inr ⟨_, hs⟩)
      | cons t gap =>
        obtain ⟨ht, hg⟩ := List.forall_mem_cons.1 hg
        exact .inl (.inl (cons_mem_single_mul.2 ⟨by simpa using ht, _, .someStatements hg hs⟩))
  · rintro ((h | ⟨ps, h⟩) | rfl)
    · obtain ⟨t, us, rfl, ht, hus⟩ := mem_single_mul.1 h
      obtain ⟨p, hp⟩ := (mem_runs_single rfl).1 hus
      exact ⟨_, hp.program_cons (by simpa using ht)⟩
    · exact ⟨_, .someStatements separators_nil h⟩
    · exact ⟨_, .noStatements separators_nil⟩

def clauseBodyRuns : Language Token := Category.program.runs * (Category.clauses.runs + 1)

theorem clauses_runs : Category.clauses.runs =
    Category.patterns.runs * (single (· = .sign .arrow) * clauseBodyRuns) := by
  have hclause {ts : List Token} {ps : List Phrase} (h : Derives .clause ts ps) {us : List Token}
      (hus : us ∈ Category.clauses.runs + 1) : ts ++ us ∈
        Category.patterns.runs * (single (· = .sign .arrow) * clauseBodyRuns) := by
    cases h with
    | clause hp ha hb =>
      rw [List.append_assoc, List.cons_append]
      refine ⟨_, ⟨_, hp⟩, _, cons_mem_single_mul.2 ⟨by simpa using ha, ?_⟩, rfl⟩
      exact ⟨_, ⟨_, hb⟩, us, hus, rfl⟩
  ext ts
  constructor
  · rintro ⟨ps, h⟩
    cases h with
    | lastClause h => simpa using hclause h (.inr rfl)
    | moreClauses h hr => exact hclause h (.inl ⟨_, hr⟩)
  · rintro ⟨a, ⟨ps, ha⟩, b, hb, rfl⟩
    obtain ⟨arrow, _, rfl, hr, body, hbody, us, hus, rfl⟩ := mem_single_mul.1 hb
    obtain ⟨q, hq⟩ := (mem_runs_single rfl).1 hbody
    have hc := Derives.clause ha (by simpa using hr) hq
    change a ++ (arrow :: body ++ us) ∈ _
    rw [← List.append_assoc]
    obtain ⟨qs, hus⟩ | rfl := hus
    · exact ⟨_, .moreClauses hc hus⟩
    · exact ⟨_, by simpa using Derives.lastClause hc⟩

theorem clauseBody_runs : clauseBodyRuns = gapRuns * clauseBodyRuns +
    Category.statements.runs * (Category.clauses.runs + 1) + Category.clauses.runs + 1 := by
  conv => lhs; rw [clauseBodyRuns, program_runs]
  rw [add_mul, add_mul, one_mul, mul_assoc, ← clauseBodyRuns, ← add_assoc]

theorem parts_runs : Category.parts.runs = single (· = .word .endWord) +
    single Chart.isLabel * (Category.body.runs * Category.parts.runs) := by
  ext ts
  constructor
  · rintro ⟨ps, h⟩
    cases h with
    | noParts h => exact .inl ⟨_, rfl, by simpa using h⟩
    | moreParts hl hw hb hr =>
      exact .inr (cons_mem_single_mul.2 ⟨by simpa [hl, Chart.isLabel] using hw, _, ⟨_, hb⟩, _,
        ⟨_, hr⟩, rfl⟩)
  · rintro (⟨t, rfl, ht⟩ | h)
    · exact ⟨_, .noParts (by simpa using ht)⟩
    · obtain ⟨label, _, rfl, hl, body, hb, us, ⟨ps, hps⟩, rfl⟩ := mem_single_mul.1 h
      obtain ⟨q, hq⟩ := (mem_runs_single rfl).1 hb
      unfold Chart.isLabel at hl
      split at hl
      · next w hw => exact ⟨_, by simpa using Derives.moreParts hw hl hq hps⟩
      · cases hl

theorem body_runs : Category.body.runs =
    gapRuns * Category.body.runs + (Category.statements.runs + Category.clauses.runs) + 1 := by
  ext ts
  constructor
  · rintro ⟨ps, h⟩
    cases h with
    | statements h =>
      have : ts ∈ gapRuns * Category.program.runs + Category.statements.runs + 1 :=
        program_runs ▸ ⟨_, h⟩
      obtain (h | h) | rfl := this
      · obtain ⟨t, us, rfl, ht, ps, hus⟩ := mem_single_mul.1 h
        exact .inl (.inl (cons_mem_single_mul.2 ⟨ht, ps, .statements hus⟩))
      · exact .inl (.inr (.inl h))
      · exact .inr rfl
    | @clauses gap us ps hg hs =>
      cases gap with
      | nil => exact .inl (.inr (.inr ⟨_, hs⟩))
      | cons t gap =>
        obtain ⟨ht, hg⟩ := List.forall_mem_cons.1 hg
        exact .inl (.inl (cons_mem_single_mul.2 ⟨by simpa using ht, _, .clauses hg hs⟩))
  · rintro ((h | ⟨ps, h⟩ | ⟨ps, h⟩) | rfl)
    · obtain ⟨t, us, rfl, ht, hus⟩ := mem_single_mul.1 h
      obtain ⟨p, hp⟩ := (mem_runs_single rfl).1 hus
      exact ⟨_, hp.body_cons (by simpa using ht)⟩
    · exact ⟨_, .statements (.someStatements separators_nil h)⟩
    · exact ⟨_, .clauses separators_nil h⟩
    · exact ⟨_, .statements (.noStatements separators_nil)⟩

def sectionsRuns : Language Token := Category.body.runs * Category.parts.runs

theorem sections_runs : sectionsRuns = gapRuns * sectionsRuns +
    (Category.statements.runs + Category.clauses.runs) * Category.parts.runs +
      Category.parts.runs := by
  conv => lhs; rw [sectionsRuns, body_runs]
  rw [add_mul, add_mul, one_mul, mul_assoc, ← sectionsRuns]

theorem Derives.ne_nil (h : Derives c ts ps) (hc : c.isSolid) : ts ≠ [] := by
  induction h <;> simp_all [Category.isSolid]

theorem nil_not_mem_runs (hc : c.isSolid) : [] ∉ c.runs := fun ⟨_, h⟩ => h.ne_nil hc rfl

def nilToken : Token := ⟨.word .nilWord, Word.text .nilWord, 0⟩

theorem tier_nilToken (hk : k ≤ unaryTier) : Derives (.tier k) [nilToken] [.literal nilToken] :=
  .tier_of_primary (.literal rfl) hk

theorem runs_nonempty (hc : ∀ k, c = .tier k → k ≤ unaryTier) : ∃ ts, ts ∈ c.runs := by
  have hexpr := tier_nilToken (Nat.zero_le _)
  have hstatements : Derives .statements [nilToken] [.literal nilToken] := by
    simpa using Derives.lastStatement hexpr separators_nil
  have hbody : Derives .program [] [.statements []] := .noStatements separators_nil
  have harrow : (⟨.sign .arrow, Sign.text .arrow, 0⟩ : Token).terminal = .sign .arrow := rfl
  have hend : (⟨.word .endWord, Word.text .endWord, 0⟩ : Token).terminal = .word .endWord := rfl
  have hclause := Derives.clause (.lastPattern hexpr) harrow hbody
  cases c with
  | tier k => exact ⟨_, _, tier_nilToken (hc k rfl)⟩
  | operand => exact ⟨_, _, .primary (.literal (t := nilToken) rfl)⟩
  | primary => exact ⟨_, _, .literal (t := nilToken) rfl⟩
  | entry => exact ⟨_, _, .expression hexpr⟩
  | entries => exact ⟨_, _, .lastEntry (.expression hexpr)⟩
  | arguments => exact ⟨_, _, .noArguments⟩
  | statements => exact ⟨_, _, hstatements⟩
  | patterns => exact ⟨_, _, .lastPattern hexpr⟩
  | clause => exact ⟨_, _, hclause⟩
  | clauses => exact ⟨_, _, .lastClause hclause⟩
  | program => exact ⟨_, _, hbody⟩
  | body => exact ⟨_, _, .statements hbody⟩
  | parts => exact ⟨_, _, .noParts hend⟩

end EmbeddedTemplate.Code
