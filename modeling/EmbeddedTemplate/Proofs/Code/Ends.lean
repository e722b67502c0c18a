import EmbeddedTemplate.Proofs.Code.Mentions
import EmbeddedTemplate.Proofs.Code.Parsing

namespace EmbeddedTemplate.Code

namespace Terminal

def endsSection : Terminal → Bool
  | .word w => w = .endWord || w.opensSection
  | _ => false

def startsSection : Terminal → Bool
  | .word .doWord | .sign .arrow => true
  | _ => false

def isInner (t : Terminal) : Bool := !t.endsSection && !t.startsSection

variable {t : Terminal} {k : Nat}

theorem isInner_of_tier? (h : t.tier? = some k) : t.isInner := by
  unfold tier? at h
  split at h <;> first | rfl | cases h

theorem isInner_of_isUnary (h : t.isUnary) : t.isInner := by
  unfold isUnary at h
  split at h <;> first | rfl | cases h

theorem isInner_of_isLiteral (h : t.isLiteral) : t.isInner := by
  unfold isLiteral at h
  split at h <;> first | rfl | cases h

end Terminal

def endsSectionAt (after : Bool) (ts : List Token) : Bool :=
  ts.head?.elim after (·.terminal.endsSection)

def startsSectionAt (before : Bool) (ts : List Token) : Bool :=
  ts.getLast?.elim before (·.terminal.startsSection)

section

variable {b : Bool} {t : Token} {ts us : List Token}

@[simp] theorem endsSectionAt_nil : endsSectionAt b [] = b := rfl

@[simp] theorem endsSectionAt_cons : endsSectionAt b (t :: ts) = t.terminal.endsSection := rfl

@[simp] theorem endsSectionAt_append :
    endsSectionAt b (ts ++ us) = endsSectionAt (endsSectionAt b us) ts := by
  cases ts <;> rfl

@[simp] theorem startsSectionAt_nil : startsSectionAt b [] = b := rfl

@[simp] theorem startsSectionAt_cons :
    startsSectionAt b (t :: ts) = startsSectionAt t.terminal.startsSection ts := by
  cases ts with
  | nil => rfl
  | cons u us => simp [startsSectionAt, List.getLast?_cons]

@[simp] theorem startsSectionAt_append :
    startsSectionAt b (ts ++ us) = startsSectionAt (startsSectionAt b ts) us := by
  induction ts generalizing b with
  | nil => rfl
  | cons t ts ih => rw [List.cons_append, startsSectionAt_cons, ih, startsSectionAt_cons]

theorem endsSectionAt_separators (h : Separators ts) : endsSectionAt false ts = false := by
  cases ts with
  | nil => rfl
  | cons t ts => rw [endsSectionAt_cons, h t (List.mem_cons_self ..)]; rfl

theorem startsSectionAt_separators (h : Separators ts) : startsSectionAt false ts = false := by
  induction ts with
  | nil => rfl
  | cons t ts ih =>
    obtain ⟨ht, h⟩ := List.forall_mem_cons.1 h
    simpa [ht, Terminal.startsSection] using ih h

end

theorem Derives.endsSectionAt_eq {c : Category} {ts : List Token} {ps : List Phrase}
    (h : Derives c ts ps) : c = .parts ∨ endsSectionAt false ts = false := by
  induction h with
  | binary _ ho _ =>
    have := Terminal.isInner_of_tier? ho
    simp_all [Terminal.isInner]
  | unary ho _ =>
    have := Terminal.isInner_of_isUnary ho
    simp_all [Terminal.isInner]
  | literal ht =>
    have := Terminal.isInner_of_isLiteral ht
    simp_all [Terminal.isInner]
  | _ => simp_all [Terminal.endsSection, endsSectionAt_separators]

/-- Categories whose runs may end with an arrow, since the body of a clause may be empty. -/
def Category.mayEndOpen : Category → Bool
  | .clause | .clauses | .body => true
  | _ => false

theorem Derives.startsSectionAt_eq {c : Category} {ts : List Token} {ps : List Phrase}
    (h : Derives c ts ps) :
    if c = .parts then ∀ b, startsSectionAt b ts = false
    else c.mayEndOpen ∨ startsSectionAt false ts = false := by
  induction h with
  | binary _ ho _ =>
    have := Terminal.isInner_of_tier? ho
    simp_all [Terminal.isInner, Category.mayEndOpen]
  | unary ho _ =>
    have := Terminal.isInner_of_isUnary ho
    simp_all [Terminal.isInner]
  | literal ht =>
    have := Terminal.isInner_of_isLiteral ht
    simp_all [Terminal.isInner]
  | block _ _ _ _ _ _ _ ih => exact .inr (by simp [show ∀ b, _ from ih])
  | moreParts _ _ _ _ _ ih => exact fun b => by simp [show ∀ b, _ from ih]
  | _ => simp_all [Terminal.startsSection, startsSectionAt_separators, Category.mayEndOpen]

theorem Terminal.startsSection_eq (t : Terminal) :
    t.startsSection = (decide (t = .word .doWord) || decide (t = .sign .arrow)) := by
  unfold startsSection
  split <;> simp_all

namespace TagKind

variable {ts : List Token}

/-- Tokens make a plain tag exactly if the first ends no section and the last starts none. -/
theorem ofTokens_eq_plain_iff : ofTokens ts = .plain ↔
    endsSectionAt false ts = false ∧ startsSectionAt false ts = false := by
  unfold ofTokens endsSectionAt startsSectionAt
  cases hf : ts.head? with
  | none => simp_all
  | some first =>
    cases hl : ts.getLast? with
    | none => simp_all
    | some last =>
      simp only [Option.elim_some, Terminal.startsSection_eq]
      split <;> grind [Terminal.endsSection]

end TagKind

theorem endsSectionAt_congr {b : Bool} {ts us : List Token}
    (h : ts.map Token.spelling = us.map Token.spelling) :
    endsSectionAt b ts = endsSectionAt b us := by
  have hfirst (ts : List Token) :
      endsSectionAt b ts = (ts.map Token.spelling).head?.elim b (·.1.endsSection) := by
    rw [endsSectionAt, List.head?_map]
    cases ts.head? <;> rfl
  rw [hfirst, h, ← hfirst]

theorem startsSectionAt_congr {b : Bool} {ts us : List Token}
    (h : ts.map Token.spelling = us.map Token.spelling) :
    startsSectionAt b ts = startsSectionAt b us := by
  have hlast (ts : List Token) :
      startsSectionAt b ts = (ts.map Token.spelling).getLast?.elim b (·.1.startsSection) := by
    rw [startsSectionAt, List.getLast?_map]
    cases ts.getLast? <;> rfl
  rw [hlast, h, ← hlast]

theorem Derives.not_startsSection {ts : List Token} {ps : List Phrase}
    (h : Derives .program ts ps) : startsSectionAt false ts = false :=
  h.startsSectionAt_eq.resolve_left nofun

theorem Derives.not_endsSection {ts : List Token} {ps : List Phrase}
    (h : Derives .program ts ps) : endsSectionAt false ts = false :=
  h.endsSectionAt_eq.resolve_left nofun

/--
Code that parses on some line makes a plain tag. The reason is in the grammar: no program starts
with `end` or with a word that opens a further section, and none ends with `do` or an arrow.
-/
theorem classify_of_parse [CharacterNames] :
    (∀ code line tree, parse code line = .ok tree → classify code = .plain) ∧
      ∀ ts ps, Derives .program ts ps →
        (∀ t ∈ ts.head?, t.terminal ≠ .word .endWord ∧
          ∀ w, t.terminal = .word w → w.opensSection = false) ∧
        ∀ t ∈ ts.getLast?, t.terminal ≠ .word .doWord ∧ t.terminal ≠ .sign .arrow := by
  refine ⟨fun code line tree h => ?_, fun ts ps h => ⟨fun t ht => ?_, fun t ht => ?_⟩⟩
  · obtain ⟨hr, p, hd, -⟩ : Explains code line (.ok tree) := h ▸ explains_parse code line
    have hts : Lexed.tokensAt? line code.toList = some (Lexed.ofCode code line).tokens :=
      if_pos (Option.isNone_iff_eq_none.2 hr)
    obtain ⟨us, hu, hs⟩ := exists_tokens? hts
    rw [classify, hu, Option.getD_some, TagKind.ofTokens_eq_plain_iff, endsSectionAt_congr hs,
      startsSectionAt_congr hs]
    exact ⟨hd.not_endsSection, hd.not_startsSection⟩
  · have hf := h.not_endsSection
    rw [endsSectionAt, Option.mem_def.1 ht, Option.elim_some] at hf
    constructor
    · intro hw
      rw [hw] at hf
      cases hf
    · intro w hw
      rw [hw] at hf
      exact (Bool.or_eq_false_iff.1 hf).2
  · have hl := h.not_startsSection
    rw [startsSectionAt, Option.mem_def.1 ht, Option.elim_some, Terminal.startsSection_eq] at hl
    simpa using hl

theorem classify_of_parse_clauses :
    let code := "case x do 1 -> 2; else y do end -> end # do"
    (∃ tree, parse code 3 = .ok tree) ∧ classify code = .plain := by
  intro code
  obtain ⟨tree, h⟩ : ∃ tree, parse code 3 = .ok tree := isSome_toOption.1 (by decide +kernel)
  exact ⟨⟨tree, h⟩, classify_of_parse.1 code 3 tree h⟩

end EmbeddedTemplate.Code
