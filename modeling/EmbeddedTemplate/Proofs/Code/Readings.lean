import EmbeddedTemplate.Code.Chart
import EmbeddedTemplate.Code.Grammar

/-!
All readings of a run of tokens in a list, by searching the rules of the grammar. Where the list has
one element, no rule gives the run another reading.
-/

namespace EmbeddedTemplate.Code

namespace Search

section

variable {α : Type} {p : Phrase} {ps : List Phrase} {t : Token} {ts us gap : List Token}
variable {test : Terminal → Bool} {found : List (List Phrase)} {n : Nat} {c : Category}

def cuts : List α → List (List α × List α)
  | [] => [([], [])]
  | x :: xs => ([], x :: xs) :: (cuts xs).map fun cut => (x :: cut.1, cut.2)

theorem mem_cuts (xs ys : List α) : (xs, ys) ∈ cuts (xs ++ ys) := by
  induction xs with
  | nil => cases ys <;> simp [cuts]
  | cons x xs ih => exact List.mem_cons_of_mem _ (List.mem_map.2 ⟨_, ih, rfl⟩)

def around (test : Terminal → Bool) (ts : List Token) : List (List Token × Token × List Token) :=
  (cuts ts).filterMap fun cut =>
    match cut.2 with
    | t :: rest => if test t.terminal then some (cut.1, t, rest) else none
    | [] => none

theorem mem_around (h : test t.terminal) : (ts, t, us) ∈ around test (ts ++ t :: us) :=
  List.mem_filterMap.2 ⟨_, mem_cuts ts (t :: us), if_pos h⟩

def headed (test : Terminal → Bool) : List Token → List (Token × List Token)
  | t :: ts => if test t.terminal then [(t, ts)] else []
  | [] => []

theorem mem_headed (h : test t.terminal) : (t, ts) ∈ headed test (t :: ts) := by
  simp [headed, h]

def ended (test : Terminal → Bool) (ts : List Token) : List (List Token) :=
  (around test ts).filterMap fun cut => if cut.2.2.isEmpty then some cut.1 else none

theorem mem_ended (h : test t.terminal) : ts ∈ ended test (ts ++ [t]) :=
  List.mem_filterMap.2 ⟨_, mem_around h, rfl⟩

def lone (test : Terminal → Bool) (ts : List Token) : List Token :=
  (headed test ts).filterMap fun cut => if cut.2.isEmpty then some cut.1 else none

theorem mem_lone (h : test t.terminal) : t ∈ lone test [t] :=
  List.mem_filterMap.2 ⟨_, mem_headed h, rfl⟩

def within (opening closing : Sign) (ts : List Token) : List (Token × List Token) :=
  (headed (· = .sign opening) ts).flatMap fun (t, rest) =>
    (ended (· = .sign closing) rest).map (t, ·)

theorem mem_within {o e : Token} {opening closing : Sign} (ho : o.terminal = .sign opening)
    (he : e.terminal = .sign closing) : (o, ts) ∈ within opening closing (o :: ts ++ [e]) :=
  List.mem_flatMap.2 ⟨_, mem_headed (by simpa using ho),
    List.mem_map.2 ⟨_, mem_ended (by simpa using he), rfl⟩⟩

def single (found : List (List Phrase)) : List Phrase :=
  found.filterMap fun ps =>
    match ps with
    | [p] => some p
    | _ => none

theorem mem_single (h : [p] ∈ found) : p ∈ single found := List.mem_filterMap.2 ⟨_, h, rfl⟩

def areSeparators (ts : List Token) : Bool := ts.all (·.terminal = .sign .semicolon)

theorem areSeparators_of_separators (h : Separators gap) : areSeparators gap :=
  List.all_eq_true.2 fun t ht => decide_eq_true (h t ht)

end

section

variable (read : Category → List Token → List (List Phrase)) (ts : List Token)

def infixes (k : Nat) : List (List Phrase) :=
  (around (·.tier? = some k) ts).flatMap fun (left, op, right) =>
    (single (read (.tier ((assoc k).tiers k).1) left)).flatMap fun p =>
      (single (read (.tier ((assoc k).tiers k).2) right)).map fun q => [.binary p op q]

def signed : List (List Phrase) :=
  (headed Terminal.isUnary ts).flatMap fun (op, rest) =>
    (single (read (.tier unaryTier) rest)).map fun p => [.unary op p]

def remoteCalls : List (List Phrase) :=
  (around (· = .sign .dot) ts).flatMap fun (target, _, rest) =>
    (headed (· = .name) rest).flatMap fun (name, rest) =>
      (within .leftParen .rightParen rest).flatMap fun (_, inner) =>
        (single (read .operand target)).flatMap fun p =>
          (read .arguments inner).map fun args => [.remoteCall p name args]

def fields : List (List Phrase) :=
  (around (· = .sign .dot) ts).flatMap fun (target, _, rest) =>
    (lone (· = .name) rest).flatMap fun name =>
      (single (read .operand target)).map fun p => [.field p name]

def accesses : List (List Phrase) :=
  (around (· = .sign .leftBracket) ts).flatMap fun (target, _, rest) =>
    (ended (· = .sign .rightBracket) rest).flatMap fun inner =>
      (single (read .operand target)).flatMap fun p =>
        (single (read (.tier 0) inner)).map fun q => [.access p q]

def atoms : List (List Phrase) :=
  (lone Terminal.isLiteral ts).map (fun t => [.literal t]) ++
    (lone (· = .name) ts).map (fun t => [.name t]) ++
    (lone (· = .modulePath) ts).map fun t => [.modulePath t]

def assigns : List (List Phrase) :=
  (headed (· = .sign .atSign) ts).flatMap fun (atSign, rest) =>
    (lone (· = .name) rest).map fun name => [.assign atSign name]

def calls : List (List Phrase) :=
  (headed (· = .name) ts).flatMap fun (name, rest) =>
    (within .leftParen .rightParen rest).flatMap fun (_, inner) =>
      (read .arguments inner).map fun args => [.call name args]

def sections (label : Token) : List (List Phrase) :=
  (cuts ts).flatMap fun (body, rest) =>
    (read .parts rest).flatMap fun parts =>
      (single (read .body body)).map fun p => .part label p :: parts

def blocks : List (List Phrase) :=
  (headed (· = .name) ts).flatMap fun (name, rest) =>
    (around (· = .word .doWord) rest).flatMap fun (inner, opening, rest) =>
      (read .arguments inner).flatMap fun args =>
        (sections read rest opening).map fun parts => [.block name args parts]

def groups : List (List Phrase) :=
  (within .leftParen .rightParen ts).flatMap fun (opening, inner) =>
    (single (read (.tier 0) inner)).map fun p => [.parens opening p]

def collections (opening closing : Sign) (form : Token → List Phrase → Phrase) :
    List (List Phrase) :=
  (within opening closing ts).flatMap fun (opening, inner) =>
    (read .arguments inner).map fun items => [form opening items]

def keywords : List (List Phrase) :=
  (headed (· = .key) ts).flatMap fun (key, rest) =>
    (single (read (.tier 0) rest)).map fun p => [.keyword key p]

def commaLists (item items : Category) : List (List Phrase) :=
  (around (· = .sign .comma) ts).flatMap fun (first, _, rest) =>
    (single (read item first)).flatMap fun p => (read items rest).map (p :: ·)

def lastStatements : List (List Phrase) :=
  (cuts ts).flatMap fun (first, gap) => if areSeparators gap then read (.tier 0) first else []

def moreStatements : List (List Phrase) :=
  (cuts ts).flatMap fun (first, rest) =>
    (cuts rest).flatMap fun (gap, rest) =>
      if areSeparators gap && !gap.isEmpty then
        (single (read (.tier 0) first)).flatMap fun p => (read .statements rest).map (p :: ·)
      else []

def clauses : List (List Phrase) :=
  (around (· = .sign .arrow) ts).flatMap fun (patterns, _, rest) =>
    (read .patterns patterns).flatMap fun ps =>
      (single (read .program rest)).map fun p => [.clause ps p]

def moreClauses : List (List Phrase) :=
  (cuts ts).flatMap fun (first, rest) =>
    if first.isEmpty || rest.isEmpty then []
    else (single (read .clause first)).flatMap fun p => (read .clauses rest).map (p :: ·)

def behindGap (c : Category) (form : List Phrase → Phrase) : List (List Phrase) :=
  (cuts ts).flatMap fun (gap, rest) =>
    if areSeparators gap then (read c rest).map fun ps => [form ps] else []

def moreParts : List (List Phrase) :=
  (headed Chart.isLabel ts).flatMap fun (label, rest) => sections read rest label

def search : Category → List (List Phrase)
  | .tier k =>
    (if k < unaryTier then read (.tier (k + 1)) ts else []) ++ infixes read ts k ++
      if k = unaryTier then read .operand ts ++ signed read ts else []
  | .operand => read .primary ts ++ remoteCalls read ts ++ fields read ts ++ accesses read ts
  | .primary =>
    atoms ts ++ assigns ts ++ calls read ts ++ blocks read ts ++ groups read ts ++
      collections read ts .leftBracket .rightBracket .list ++
      collections read ts .leftBrace .rightBrace .tuple
  | .entry => read (.tier 0) ts ++ keywords read ts
  | .entries => read .entry ts ++ commaLists read ts .entry .entries
  | .arguments => (if ts.isEmpty then [[]] else []) ++ read .entries ts
  | .statements => lastStatements read ts ++ moreStatements read ts
  | .patterns => read (.tier 0) ts ++ commaLists read ts (.tier 0) .patterns
  | .clause => clauses read ts
  | .clauses => read .clause ts ++ moreClauses read ts
  | .program =>
    (if areSeparators ts then [[.statements []]] else []) ++
      behindGap read ts .statements .statements
  | .body => read .program ts ++ behindGap read ts .clauses .clauses
  | .parts => (lone (· = .word .endWord) ts).map (fun _ => []) ++ moreParts read ts

end

end Search

open Search

def readings : Nat → Category → List Token → List (List Phrase)
  | 0, _, _ => []
  | n + 1, c, ts => search (readings n) ts c

/-- How many rules in a row can leave no token out. -/
def Category.height : Category → Nat
  | .primary | .parts => 0
  | .operand => 1
  | .tier k => 2 + (unaryTier - k)
  | .entry | .statements | .patterns => 14
  | .entries | .clause | .program => 15
  | .arguments | .clauses => 16
  | .body => 17

def rounds (c : Category) (ts : List Token) : Nat := 18 * ts.length + c.height

namespace Search

section

variable {read : Category → List Token → List (List Phrase)} {k : Nat} {p q : Phrase}
variable {ps qs args parts : List Phrase} {o e t op name key : Token}
variable {ts us vs left right inner gap : List Token}

theorem mem_infixes (hp : [p] ∈ read (.tier ((assoc k).tiers k).1) left)
    (ho : op.terminal.tier? = some k) (hq : [q] ∈ read (.tier ((assoc k).tiers k).2) right) :
    [.binary p op q] ∈ infixes read (left ++ op :: right) k :=
  List.mem_flatMap.2 ⟨_, mem_around (decide_eq_true ho),
    List.mem_flatMap.2 ⟨_, mem_single hp, List.mem_map.2 ⟨_, mem_single hq, rfl⟩⟩⟩

theorem mem_signed (ho : op.terminal.isUnary) (hp : [p] ∈ read (.tier unaryTier) ts) :
    [.unary op p] ∈ signed read (op :: ts) :=
  List.mem_flatMap.2 ⟨_, mem_headed ho, List.mem_map.2 ⟨_, mem_single hp, rfl⟩⟩

theorem mem_remoteCalls (hp : [p] ∈ read .operand ts) (ht : t.terminal = .sign .dot)
    (hn : name.terminal = .name) (ho : o.terminal = .sign .leftParen)
    (ha : args ∈ read .arguments inner) (he : e.terminal = .sign .rightParen) :
    [.remoteCall p name args] ∈ remoteCalls read (ts ++ t :: name :: o :: inner ++ [e]) := by
  rw [List.append_assoc]
  exact List.mem_flatMap.2 ⟨_, mem_around (decide_eq_true ht), List.mem_flatMap.2
    ⟨_, mem_headed (decide_eq_true hn), List.mem_flatMap.2 ⟨_, mem_within ho he,
      List.mem_flatMap.2 ⟨_, mem_single hp, List.mem_map.2 ⟨_, ha, rfl⟩⟩⟩⟩⟩

theorem mem_fields (hp : [p] ∈ read .operand ts) (ht : t.terminal = .sign .dot)
    (hn : name.terminal = .name) : [.field p name] ∈ fields read (ts ++ [t, name]) :=
  List.mem_flatMap.2 ⟨_, mem_around (decide_eq_true ht), List.mem_flatMap.2
    ⟨_, mem_lone (decide_eq_true hn), List.mem_map.2 ⟨_, mem_single hp, rfl⟩⟩⟩

theorem mem_accesses (hp : [p] ∈ read .operand ts) (ho : o.terminal = .sign .leftBracket)
    (hq : [q] ∈ read (.tier 0) inner) (he : e.terminal = .sign .rightBracket) :
    [.access p q] ∈ accesses read (ts ++ o :: inner ++ [e]) := by
  rw [List.append_assoc]
  exact List.mem_flatMap.2 ⟨_, mem_around (decide_eq_true ho), List.mem_flatMap.2
    ⟨_, mem_ended (decide_eq_true he), List.mem_flatMap.2 ⟨_, mem_single hp,
      List.mem_map.2 ⟨_, mem_single hq, rfl⟩⟩⟩⟩

theorem mem_assigns (ht : t.terminal = .sign .atSign) (hn : name.terminal = .name) :
    [.assign t name] ∈ assigns [t, name] :=
  List.mem_flatMap.2 ⟨_, mem_headed (decide_eq_true ht),
    List.mem_map.2 ⟨_, mem_lone (decide_eq_true hn), rfl⟩⟩

theorem mem_calls (hn : name.terminal = .name) (ho : o.terminal = .sign .leftParen)
    (ha : args ∈ read .arguments inner) (he : e.terminal = .sign .rightParen) :
    [.call name args] ∈ calls read (name :: o :: inner ++ [e]) :=
  List.mem_flatMap.2 ⟨_, mem_headed (decide_eq_true hn),
    List.mem_flatMap.2 ⟨_, mem_within ho he, List.mem_map.2 ⟨_, ha, rfl⟩⟩⟩

theorem mem_sections (hp : [p] ∈ read .body ts) (hparts : parts ∈ read .parts us) :
    .part t p :: parts ∈ sections read (ts ++ us) t :=
  List.mem_flatMap.2 ⟨_, mem_cuts ts us, List.mem_flatMap.2
    ⟨_, hparts, List.mem_map.2 ⟨_, mem_single hp, rfl⟩⟩⟩

theorem mem_blocks (hn : name.terminal = .name) (ha : args ∈ read .arguments inner)
    (ho : o.terminal = .word .doWord) (hp : [p] ∈ read .body ts) (hparts : parts ∈ read .parts us) :
    [.block name args (.part o p :: parts)] ∈ blocks read (name :: inner ++ o :: ts ++ us) := by
  rw [List.append_assoc]
  exact List.mem_flatMap.2 ⟨_, mem_headed (decide_eq_true hn), List.mem_flatMap.2
    ⟨_, mem_around (decide_eq_true ho), List.mem_flatMap.2 ⟨_, ha,
      List.mem_map.2 ⟨_, mem_sections hp hparts, rfl⟩⟩⟩⟩

theorem mem_groups (ho : o.terminal = .sign .leftParen) (hp : [p] ∈ read (.tier 0) inner)
    (he : e.terminal = .sign .rightParen) : [.parens o p] ∈ groups read (o :: inner ++ [e]) :=
  List.mem_flatMap.2 ⟨_, mem_within ho he, List.mem_map.2 ⟨_, mem_single hp, rfl⟩⟩

theorem mem_collections {opening closing : Sign} (form : Token → List Phrase → Phrase)
    (ho : o.terminal = .sign opening) (hi : ps ∈ read .arguments inner)
    (he : e.terminal = .sign closing) :
    [form o ps] ∈ collections read (o :: inner ++ [e]) opening closing form :=
  List.mem_flatMap.2 ⟨_, mem_within ho he, List.mem_map.2 ⟨_, hi, rfl⟩⟩

theorem mem_keywords (hk : key.terminal = .key) (hp : [p] ∈ read (.tier 0) ts) :
    [.keyword key p] ∈ keywords read (key :: ts) :=
  List.mem_flatMap.2 ⟨_, mem_headed (decide_eq_true hk), List.mem_map.2 ⟨_, mem_single hp, rfl⟩⟩

theorem mem_commaLists {item items : Category} (hp : [p] ∈ read item ts)
    (ht : t.terminal = .sign .comma) (hps : ps ∈ read items us) :
    p :: ps ∈ commaLists read (ts ++ t :: us) item items :=
  List.mem_flatMap.2 ⟨_, mem_around (decide_eq_true ht), List.mem_flatMap.2
    ⟨_, mem_single hp, List.mem_map.2 ⟨_, hps, rfl⟩⟩⟩

theorem mem_lastStatements (hp : ps ∈ read (.tier 0) ts) (hg : Separators gap) :
    ps ∈ lastStatements read (ts ++ gap) := by
  refine List.mem_flatMap.2 ⟨_, mem_cuts ts gap, ?_⟩
  dsimp only
  rwa [if_pos (areSeparators_of_separators hg)]

theorem mem_moreStatements (hp : [p] ∈ read (.tier 0) ts) (hg : Separators gap) (hne : gap ≠ [])
    (hps : ps ∈ read .statements us) : p :: ps ∈ moreStatements read (ts ++ gap ++ us) := by
  rw [List.append_assoc]
  refine List.mem_flatMap.2 ⟨_, mem_cuts ts (gap ++ us), List.mem_flatMap.2
    ⟨_, mem_cuts gap us, ?_⟩⟩
  dsimp only
  rw [if_pos (by simp [areSeparators_of_separators hg, hne])]
  exact List.mem_flatMap.2 ⟨_, mem_single hp, List.mem_map.2 ⟨_, hps, rfl⟩⟩

theorem mem_clauses (hps : ps ∈ read .patterns ts) (ht : t.terminal = .sign .arrow)
    (hp : [p] ∈ read .program us) : [.clause ps p] ∈ clauses read (ts ++ t :: us) :=
  List.mem_flatMap.2 ⟨_, mem_around (decide_eq_true ht), List.mem_flatMap.2
    ⟨_, hps, List.mem_map.2 ⟨_, mem_single hp, rfl⟩⟩⟩

theorem mem_moreClauses (hp : [p] ∈ read .clause ts) (hts : ts ≠ []) (hps : ps ∈ read .clauses us)
    (hus : us ≠ []) : p :: ps ∈ moreClauses read (ts ++ us) := by
  refine List.mem_flatMap.2 ⟨_, mem_cuts ts us, ?_⟩
  dsimp only
  rw [if_neg (by simp [hts, hus])]
  exact List.mem_flatMap.2 ⟨_, mem_single hp, List.mem_map.2 ⟨_, hps, rfl⟩⟩

theorem mem_behindGap {c : Category} (form : List Phrase → Phrase) (hg : Separators gap)
    (hps : ps ∈ read c ts) : [form ps] ∈ behindGap read (gap ++ ts) c form := by
  refine List.mem_flatMap.2 ⟨_, mem_cuts gap ts, ?_⟩
  dsimp only
  rw [if_pos (areSeparators_of_separators hg)]
  exact List.mem_map.2 ⟨_, hps, rfl⟩

theorem mem_moreParts (ht : Chart.isLabel t.terminal) (hp : [p] ∈ read .body ts)
    (hparts : parts ∈ read .parts us) : .part t p :: parts ∈ moreParts read (t :: ts ++ us) :=
  List.mem_flatMap.2 ⟨_, mem_headed ht, mem_sections hp hparts⟩

end

end Search

variable {c : Category} {ts : List Token} {ps : List Phrase}

theorem Derives.clause_ne_nil (h : Derives .clause ts ps) : ts ≠ [] := by
  cases h
  simp

theorem Derives.clauses_ne_nil (h : Derives .clauses ts ps) : ts ≠ [] := by
  cases h with
  | lastClause h => exact h.clause_ne_nil
  | moreClauses h _ => simp [h.clause_ne_nil]

theorem Category.height_lt (c : Category) : c.height < 18 := by
  cases c <;> simp only [height, unaryTier] <;> omega

theorem rounds_lt_of_length {c' : Category} {ts' : List Token} (h : ts'.length < ts.length) :
    rounds c' ts' < rounds c ts := by
  have := c'.height_lt
  unfold rounds
  omega

theorem rounds_lt_of_height {c' : Category} {ts' : List Token} (h : c'.height < c.height)
    (hl : ts'.length ≤ ts.length) : rounds c' ts' < rounds c ts := by
  unfold rounds
  omega

theorem mem_search {read : Category → List Token → List (List Phrase)} (h : Derives c ts ps)
    (hread : ∀ {c' ts' ps'}, Derives c' ts' ps' → rounds c' ts' < rounds c ts →
      ps' ∈ read c' ts') : ps ∈ search read ts c := by
  have shorter {c' ts' ps'} (h : Derives c' ts' ps') (hl : ts'.length < ts.length) :
      ps' ∈ read c' ts' := hread h (rounds_lt_of_length hl)
  have lower {c' ts' ps'} (h : Derives c' ts' ps') (hc : c'.height < c.height)
      (hl : ts'.length ≤ ts.length) : ps' ∈ read c' ts' := hread h (rounds_lt_of_height hc hl)
  -- Each part of a run is shorter, or is the whole run in a category of less height.
  cases h with
  | tighter h hk =>
    have := lower h (by simp only [Category.height]; omega) (Nat.le_refl _)
    simp [search, hk, this]
  | binary h ho h' =>
    have := mem_infixes (shorter h (by grind)) ho (shorter h' (by grind))
    simp [search, this]
  | unary ho h =>
    have := mem_signed ho (shorter h (by grind))
    simp [search, this]
  | operand h =>
    have := lower h (by decide) (Nat.le_refl _)
    simp [search, this]
  | primary h =>
    have := lower h (by decide) (Nat.le_refl _)
    simp [search, this]
  | remoteCall h hd hn ho ha he =>
    have := mem_remoteCalls (shorter h (by grind)) hd hn ho (shorter ha (by grind)) he
    simp only [search, List.mem_append, this, or_true, true_or]
  | field h hd hn =>
    have := mem_fields (shorter h (by grind)) hd hn
    simp only [search, List.mem_append, this, or_true, true_or]
  | access h ho h' he =>
    have := mem_accesses (shorter h (by grind)) ho (shorter h' (by grind)) he
    simp only [search, List.mem_append, this, or_true]
  | literal ht => simp [search, atoms, lone, headed, ht]
  | name ht => simp [search, atoms, lone, headed, ht]
  | modulePath ht => simp [search, atoms, lone, headed, ht]
  | assign ha hn =>
    have := mem_assigns ha hn
    simp only [search, List.mem_append, this, or_true, true_or]
  | call hn ho h he =>
    have := mem_calls hn ho (shorter h (by grind)) he
    simp only [search, List.mem_append, this, or_true, true_or]
  | block hn ha ho hb hp =>
    have := mem_blocks hn (shorter ha (by grind)) ho (shorter hb (by grind)) (shorter hp (by grind))
    simp only [search, List.mem_append, this, or_true, true_or]
  | parens ho h he =>
    have := mem_groups ho (shorter h (by grind)) he
    simp only [search, List.mem_append, this, or_true, true_or]
  | list ho h he =>
    have := mem_collections .list ho (shorter h (by grind)) he
    simp only [search, List.mem_append, this, or_true, true_or]
  | tuple ho h he =>
    have := mem_collections .tuple ho (shorter h (by grind)) he
    simp only [search, List.mem_append, this, or_true]
  | expression h | lastEntry h | someArguments h | lastPattern h | lastClause h | statements h =>
    have := lower h (by decide) (Nat.le_refl _)
    simp only [search, List.mem_append, this, or_true, true_or]
  | keyword hk h =>
    have := mem_keywords hk (shorter h (by grind))
    simp only [search, List.mem_append, this, or_true]
  | moreEntries h hc h' | morePatterns h hc h' =>
    have := mem_commaLists (shorter h (by grind)) hc (shorter h' (by grind))
    simp only [search, List.mem_append, this, or_true]
  | noArguments => simp [search]
  | lastStatement h hg =>
    have := mem_lastStatements (lower h (by decide) (by grind)) hg
    simp only [search, List.mem_append, this, true_or]
  | moreStatements h hg hne h' =>
    have := List.length_pos_iff.2 hne
    have := mem_moreStatements (shorter h (by grind)) hg hne (shorter h' (by grind))
    simp only [search, List.mem_append, this, or_true]
  | clause h ha h' =>
    have := mem_clauses (shorter h (by grind)) ha (shorter h' (by grind))
    simpa only [search] using this
  | moreClauses h h' =>
    have hts := h.clause_ne_nil
    have hus := h'.clauses_ne_nil
    have := List.length_pos_iff.2 hts
    have := List.length_pos_iff.2 hus
    have := mem_moreClauses (shorter h (by grind)) hts (shorter h' (by grind)) hus
    simp only [search, List.mem_append, this, or_true]
  | noStatements hg => simp [search, areSeparators_of_separators hg]
  | someStatements hg h =>
    have := mem_behindGap .statements hg (lower h (by decide) (by grind))
    simp only [search, List.mem_append, this, or_true]
  | clauses hg h =>
    have := mem_behindGap .clauses hg (lower h (by decide) (by grind))
    simp only [search, List.mem_append, this, or_true]
  | noParts he => simp [search, lone, headed, he]
  | moreParts hl hw hb hp =>
    have hlabel : Chart.isLabel (.word _) := hw
    rw [← hl] at hlabel
    have := mem_moreParts hlabel (shorter hb (by grind)) (shorter hp (by grind))
    simp only [search, List.mem_append, this, or_true]

theorem mem_readings {n : Nat} (h : Derives c ts ps) (hn : rounds c ts < n) :
    ps ∈ readings n c ts := by
  induction n generalizing c ts ps with
  | zero => exact absurd hn (Nat.not_lt_zero _)
  | succ n ih => exact mem_search h fun h' hlt => ih h' (by omega)

/-- A run of tokens for which the search finds one reading at most has no two. -/
theorem Derives.eq_of_readings {qs : List Phrase}
    (h : (readings (rounds c ts + 1) c ts).length ≤ 1) (hp : Derives c ts ps)
    (hq : Derives c ts qs) : ps = qs := by
  have hps := mem_readings hp (Nat.lt_succ_self _)
  have hqs := mem_readings hq (Nat.lt_succ_self _)
  match readings (rounds c ts + 1) c ts, h, hps, hqs with
  | [found], _, hps, hqs => exact (List.mem_singleton.1 hps).trans (List.mem_singleton.1 hqs).symm

end EmbeddedTemplate.Code
