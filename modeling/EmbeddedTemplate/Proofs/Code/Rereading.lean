import EmbeddedTemplate.Code.Reading
import EmbeddedTemplate.Proofs.Code.Lines
import EmbeddedTemplate.Proofs.Code.Spelling

namespace EmbeddedTemplate

namespace Tree

mutual

@[simp]
def unlined : Tree → Tree
  | .pair left right => .pair left.unlined right.unlined
  | .ref target note => .ref target.unlined { note with line := none }
  | .call target note args => .call target.unlined { note with line := none } (unlinedAll args)
  | .list items => .list (unlinedAll items)
  | .sealed items => .sealed (unlinedAll items)
  | t => t

@[simp]
def unlinedAll : List Tree → List Tree
  | [] => []
  | t :: ts => t.unlined :: unlinedAll ts

end

theorem unlinedAll_eq_map (ts : List Tree) : unlinedAll ts = ts.map unlined := by
  induction ts with
  | nil => rfl
  | cons t ts ih => rw [unlinedAll, ih, List.map_cons]

end Tree

namespace Code

open EmbeddedTemplate.Tree
open scoped Computability

variable {t u : Tree} {ts us : List Tree} {c : Category} {k : Nat} {line : Option Int}

theorem Derives.entries_of_patterns {run : List Token} {ps : List Phrase}
    (h : Derives .patterns run ps) : Derives .entries run ps := by
  generalize hc : Category.patterns = c at h
  induction h with
  | lastPattern h => exact .lastEntry (.expression h)
  | morePatterns h hcomma _ _ ih => exact .moreEntries (.expression h) hcomma (ih hc)
  | _ => cases hc

theorem Derives.not_isKeyword {run : List Token} {p : Phrase} (h : Derives (.tier k) run [p]) :
    p.isKeyword = false := by
  generalize hc : Category.tier k = c, hps : [p] = ps at h
  have : c = .tier k ∨ c = .operand ∨ c = .primary := .inl hc.symm
  clear hc
  induction h generalizing k <;> simp_all [Phrase.isKeyword]

theorem gatherKeywords_cons {p : Phrase} {ps : List Phrase} (h : p.isKeyword = false) :
    Phrase.gatherKeywords (p :: ps) (t :: ts) = t :: Phrase.gatherKeywords ps ts := by
  unfold Phrase.gatherKeywords
  simp only [List.zip_cons_cons, List.filter_cons, h]
  split_ifs <;> simp_all

theorem gatherKeywords_of_isKeyword {ps : List Phrase} (h : ∀ p ∈ ps, p.isKeyword)
    (hl : ts.length = ps.length) (hne : ps ≠ []) :
    Phrase.gatherKeywords ps ts = [.list ts] := by
  have hall : ∀ e ∈ ps.zip ts, e.1.isKeyword := fun e he => h _ (List.of_mem_zip he).1
  have hkeys : (ps.zip ts).filter (fun e => e.1.isKeyword) = ps.zip ts :=
    List.filter_eq_self.2 hall
  have hrest : (ps.zip ts).filter (fun e => !e.1.isKeyword) = [] := by
    simpa using hall
  have hts : (ps.zip ts).map (·.2) = ts := List.map_snd_zip hl.le
  have hne : ts ≠ [] := by
    rintro rfl
    exact hne (List.length_eq_zero_iff.1 hl.symm)
  simp [Phrase.gatherKeywords, hkeys, hrest, hts, hne]

variable [CharacterNames]

def runsOf (c : Category) (t : Tree) : Language Token :=
  {run | ∃ p u, Derives c run [p] ∧ p.toTree = .ok u ∧ u.unlined = t.unlined}

def runsOfAll (c : Category) (ts : List Tree) : Language Token :=
  {run | ∃ ps us, Derives c run ps ∧ Phrase.toTrees ps = .ok us ∧ unlinedAll us = unlinedAll ts}

def runsOfKeywords (ts : List Tree) : Language Token :=
  {run | ∃ ps us, Derives .entries run ps ∧ Phrase.toTrees ps = .ok us ∧
    unlinedAll us = unlinedAll ts ∧ ∀ p ∈ ps, p.isKeyword}

def runsOfArguments (c : Category) (args : List Tree) : Language Token :=
  {run | ∃ ps us, Derives c run ps ∧ Phrase.toTrees ps = .ok us ∧
    unlinedAll (Phrase.gatherKeywords ps us) = unlinedAll args}

theorem runsOf_le {c d : Category} (h : ∀ run ps, Derives c run ps → Derives d run ps) :
    runsOf c t ≤ runsOf d t := by
  rintro run ⟨p, u, hd, hp, hu⟩
  exact ⟨p, u, h _ _ hd, hp, hu⟩

theorem runsOf_primary_le : runsOf .primary t ≤ runsOf .operand t :=
  runsOf_le fun _ _ => .primary

theorem runsOf_operand_le (hk : k ≤ unaryTier) : runsOf .operand t ≤ runsOf (.tier k) t :=
  runsOf_le fun _ _ h => (Derives.operand h).tier_le hk (Nat.le_refl _)

theorem runsOf_tier_le {i : Nat} (hi : i ≤ k) (hk : k ≤ unaryTier) :
    runsOf (.tier k) t ≤ runsOf (.tier i) t :=
  runsOf_le fun _ _ h => h.tier_le hi hk

theorem spelt_le_literal {x : Terminal} {s : String} (hx : x.isLiteral)
    (hv : ∀ line, Literal.value ⟨x, s, line⟩ = .ok t) : spelt x s ≤ runsOf .primary t := by
  rintro _ ⟨line, rfl⟩
  exact ⟨_, t, .literal hx, hv line, rfl⟩

theorem spelt_le_var {name : String} :
    spelt .name name ≤ runsOf .primary (.var name ⟨line, none⟩) := by
  rintro _ ⟨l, rfl⟩
  exact ⟨_, _, .name rfl, rfl, rfl⟩

theorem spelt_le_path {parts : List String} {text : String} (h : text.splitOn "." = parts) :
    spelt .modulePath text ≤ runsOf .primary (.moduleName parts ⟨line, none⟩) := by
  rintro _ ⟨l, rfl⟩
  refine ⟨_, _, .modulePath rfl, rfl, ?_⟩
  rw [h]
  rfl

theorem spelt_le_assign {name : String} {line' : Option Int} :
    spelt (.sign .atSign) "@" * spelt .name name ≤
      runsOf .primary (.named "@" [.var name ⟨line', none⟩] ⟨line, none⟩) := by
  rintro _ ⟨_, ⟨l, rfl⟩, _, ⟨l', rfl⟩, rfl⟩
  exact ⟨_, _, .assign rfl rfl, rfl, rfl⟩

variable {open' close' dot' mark' : String}

theorem parens_le : spelt (.sign .leftParen) open' * runsOf (.tier 0) t *
    spelt (.sign .rightParen) close' ≤ runsOf .primary t := by
  rintro _ ⟨_, ⟨_, ⟨l, rfl⟩, inner, ⟨p, u, hd, hp, hu⟩, rfl⟩, _, ⟨l', rfl⟩, rfl⟩
  exact ⟨_, u, .parens rfl hd rfl, hp, hu⟩

theorem list_le : spelt (.sign .leftBracket) open' * runsOfAll .arguments ts *
    spelt (.sign .rightBracket) close' ≤ runsOf .primary (.list ts) := by
  rintro _ ⟨_, ⟨_, ⟨l, rfl⟩, inner, ⟨ps, us, hd, hps, hus⟩, rfl⟩, _, ⟨l', rfl⟩, rfl⟩
  refine ⟨_, .list us, .list rfl hd rfl, ?_, congrArg Tree.list hus⟩
  simp only [Phrase.toTree, hps, ok_bind, pure_eq_ok]

theorem tuple_le (h : ts.length ≠ 2) : spelt (.sign .leftBrace) open' * runsOfAll .arguments ts *
    spelt (.sign .rightBrace) close' ≤ runsOf .primary (.named "\x7b\x7d" ts ⟨line, none⟩) := by
  rintro _ ⟨_, ⟨_, ⟨l, rfl⟩, inner, ⟨ps, us, hd, hps, hus⟩, rfl⟩, _, ⟨l', rfl⟩, rfl⟩
  have hlen : us.length ≠ 2 := by
    have := congrArg List.length hus
    simp only [unlinedAll_eq_map, List.length_map] at this
    rwa [this]
  refine ⟨_, .named "\x7b\x7d" us ⟨some l, none⟩, .tuple rfl hd rfl, ?_, ?_⟩
  · simp only [Phrase.toTree, hps, ok_bind]
    split
    · exact absurd rfl hlen
    · rfl
  · simp only [Tree.named, unlined, hus]

theorem pair_le : spelt (.sign .leftBrace) open' * runsOfAll .arguments [t, u] *
    spelt (.sign .rightBrace) close' ≤ runsOf .primary (.pair t u) := by
  rintro _ ⟨_, ⟨_, ⟨l, rfl⟩, inner, ⟨ps, us, hd, hps, hus⟩, rfl⟩, _, ⟨l', rfl⟩, rfl⟩
  match us, hus with
  | [t', u'], hus =>
    refine ⟨_, .pair t' u', .tuple rfl hd rfl, ?_, ?_⟩
    · simp only [Phrase.toTree, hps, ok_bind]
      rfl
    · simp_all [unlined, unlinedAll]
  | [], hus => cases hus
  | [_], hus => simp [unlinedAll] at hus
  | _ :: _ :: _ :: _, hus => simp [unlinedAll] at hus

theorem call_le {name : String} : spelt .name name * spelt (.sign .leftParen) open' *
    runsOfArguments .arguments ts * spelt (.sign .rightParen) close' ≤
      runsOf .primary (.named name ts ⟨line, none⟩) := by
  rintro _ ⟨_, ⟨_, ⟨_, ⟨l, rfl⟩, _, ⟨l', rfl⟩, rfl⟩, inner, ⟨ps, us, hd, hps, hus⟩, rfl⟩, _,
    ⟨l'', rfl⟩, rfl⟩
  refine ⟨_, .named name (Phrase.gatherKeywords ps us) ⟨some l, none⟩, .call rfl rfl hd rfl, ?_, ?_⟩
  · simp only [Phrase.toTree, hps, ok_bind]
    rfl
  · simp only [Tree.named, unlined, hus]

theorem unary_le {x : Terminal} {name : String} (hx : x.isUnary) :
    spelt x name * runsOf (.tier unaryTier) t ≤
      runsOf (.tier unaryTier) (.named name [t] ⟨line, none⟩) := by
  rintro _ ⟨_, ⟨l, rfl⟩, run, ⟨p, u, hd, hp, hu⟩, rfl⟩
  refine ⟨_, .named name [u] ⟨some l, none⟩, .unary hx hd, ?_, ?_⟩
  · simp only [Phrase.toTree, hp, ok_bind]
    rfl
  · simp only [Tree.named, unlined, unlinedAll, hu]

theorem binary_le {x : Terminal} {name : String} (hx : x.tier? = some k) :
    runsOf (.tier ((assoc k).tiers k).1) t * spelt x name *
      runsOf (.tier ((assoc k).tiers k).2) u ≤
        runsOf (.tier k) (.named name [t, u] ⟨line, none⟩) := by
  rintro _ ⟨_, ⟨run₁, ⟨p, t', hd₁, hp, ht⟩, _, ⟨l, rfl⟩, rfl⟩, run₂, ⟨q, u', hd₂, hq, hu⟩, rfl⟩
  have op : (⟨x, name, l⟩ : Token).terminal.tier? = some k := hx
  have := Derives.binary hd₁ op hd₂
  refine ⟨_, .named name [t', u'] ⟨some p.line, none⟩, by simpa using this, ?_, ?_⟩
  · simp only [Phrase.toTree, hp, hq, ok_bind]
    rfl
  · simp only [Tree.named, unlined, unlinedAll, ht, hu]

theorem remoteCall_le {name : String} {dotLine : Option Int} : runsOf .operand t *
    spelt (.sign .dot) dot' * spelt .name name * spelt (.sign .leftParen) open' *
    runsOfArguments .arguments ts * spelt (.sign .rightParen) close' ≤
      runsOf .operand (.call (.named "." [t, .atom name] ⟨dotLine, none⟩) ⟨line, none⟩ ts) := by
  rintro _ ⟨_, ⟨_, ⟨_, ⟨_, ⟨run, ⟨p, t', hd, hp, ht⟩, _, ⟨l₁, rfl⟩, rfl⟩, _, ⟨l₂, rfl⟩, rfl⟩, _,
    ⟨l₃, rfl⟩, rfl⟩, inner, ⟨ps, us, hds, hps, hus⟩, rfl⟩, _, ⟨l₄, rfl⟩, rfl⟩
  have dot : (⟨.sign .dot, dot', l₁⟩ : Token).terminal = .sign .dot := rfl
  have method : (⟨.name, name, l₂⟩ : Token).terminal = .name := rfl
  have opening : (⟨.sign .leftParen, open', l₃⟩ : Token).terminal = .sign .leftParen := rfl
  have closing : (⟨.sign .rightParen, close', l₄⟩ : Token).terminal = .sign .rightParen := rfl
  have := Derives.remoteCall hd dot method opening hds closing
  refine ⟨_, .remote t' name (Phrase.gatherKeywords ps us) ⟨some p.line, none⟩, by simpa using this,
    ?_, ?_⟩
  · simp only [Phrase.toTree, hp, hps, ok_bind]
    rfl
  · simp only [Tree.remote, Tree.named, unlined, unlinedAll, hus, ht]

theorem field_le {name : String} {dotLine : Option Int} :
    runsOf .operand t * spelt (.sign .dot) dot' * spelt .name name ≤
      runsOf .operand
        (.call (.named "." [t, .atom name] ⟨dotLine, none⟩) ⟨line, some true⟩ []) := by
  rintro _ ⟨_, ⟨run, ⟨p, t', hd, hp, ht⟩, _, ⟨l₁, rfl⟩, rfl⟩, _, ⟨l₂, rfl⟩, rfl⟩
  have dot : (⟨.sign .dot, dot', l₁⟩ : Token).terminal = .sign .dot := rfl
  have field : (⟨.name, name, l₂⟩ : Token).terminal = .name := rfl
  have := Derives.field hd dot field
  refine ⟨_, .call (.named "." [t', .atom name] ⟨some p.line, none⟩) ⟨some p.line, some true⟩ [],
    by simpa using this, ?_, ?_⟩
  · simp only [Phrase.toTree, hp, ok_bind]
    rfl
  · simp only [Tree.named, unlined, unlinedAll, ht]

theorem access_le {dotLine pathLine : Option Int} : runsOf .operand t *
    spelt (.sign .leftBracket) open' * runsOf (.tier 0) u * spelt (.sign .rightBracket) close' ≤
      runsOf .operand (.call (.named "." [.moduleName ["Access"] ⟨pathLine, none⟩, .atom "get"]
        ⟨dotLine, none⟩) ⟨line, none⟩ [t, u]) := by
  rintro _ ⟨_, ⟨_, ⟨run, ⟨p, t', hd, hp, ht⟩, _, ⟨l₁, rfl⟩, rfl⟩, inner, ⟨q, u', hq, hqt, hu⟩, rfl⟩,
    _, ⟨l₂, rfl⟩, rfl⟩
  have opening : (⟨.sign .leftBracket, open', l₁⟩ : Token).terminal = .sign .leftBracket := rfl
  have closing : (⟨.sign .rightBracket, close', l₂⟩ : Token).terminal = .sign .rightBracket := rfl
  have := Derives.access hd opening hq closing
  let note : Annotation := ⟨some p.line, none⟩
  refine ⟨_, .remote (.moduleName ["Access"] note) "get" [t', u'] note, by simpa using this, ?_, ?_⟩
  · simp only [Phrase.toTree, hp, hqt, ok_bind]
    rfl
  · simp only [Tree.remote, Tree.moduleName, Tree.named, unlined, unlinedAll, ht, hu,
      List.map_cons, List.map_nil, note]

theorem toTrees_cons {p : Phrase} {ps : List Phrase} (hp : p.toTree = .ok t)
    (hps : Phrase.toTrees ps = .ok ts) : Phrase.toTrees (p :: ps) = .ok (t :: ts) := by
  simp only [Phrase.toTrees, hp, hps, ok_bind, pure_eq_ok]

theorem toTrees_singleton {p : Phrase} (hp : p.toTree = .ok t) : Phrase.toTrees [p] = .ok [t] :=
  toTrees_cons hp rfl

theorem runsOfAll_le {c d : Category} (h : ∀ run ps, Derives c run ps → Derives d run ps) :
    runsOfAll c ts ≤ runsOfAll d ts := by
  rintro run ⟨ps, us, hd, hps, hus⟩
  exact ⟨ps, us, h _ _ hd, hps, hus⟩

theorem singleton_le {c d : Category} (h : ∀ run ps, Derives c run ps → Derives d run ps) :
    runsOf c t ≤ runsOfAll d [t] := by
  rintro run ⟨p, u, hd, hp, hu⟩
  exact ⟨[p], [u], h _ _ hd, toTrees_singleton hp, by simp only [unlinedAll, hu]⟩

theorem cons_le {c d : Category} {between : Language Token}
    (h : ∀ run p, ∀ gap ∈ between, ∀ rest ps, Derives c run [p] → Derives d rest ps →
      Derives d (run ++ gap ++ rest) (p :: ps)) :
    runsOf c t * between * runsOfAll d ts ≤ runsOfAll d (t :: ts) := by
  rintro _ ⟨_, ⟨run, ⟨p, u, hd, hp, hu⟩, gap, hgap, rfl⟩, rest, ⟨ps, us, hds, hps, hus⟩, rfl⟩
  exact ⟨p :: ps, u :: us, h _ _ gap hgap _ _ hd hds, toTrees_cons hp hps,
    by simp only [unlinedAll, hu, hus]⟩

theorem patterns_cons_le : runsOf (.tier 0) t * spelt (.sign .comma) mark' *
    runsOfAll .patterns ts ≤ runsOfAll .patterns (t :: ts) := by
  refine cons_le ?_
  rintro run p _ ⟨l, rfl⟩ rest ps hd hds
  have comma : (⟨.sign .comma, mark', l⟩ : Token).terminal = .sign .comma := rfl
  simpa using Derives.morePatterns hd comma hds

theorem clauses_cons_le :
    runsOf .clause t * runsOfAll .clauses ts ≤ runsOfAll .clauses (t :: ts) := by
  rw [← mul_one (runsOf .clause t)]
  refine cons_le ?_
  rintro run p _ rfl rest ps hd hds
  simpa using Derives.moreClauses hd hds

theorem patterns_le : runsOfAll .patterns ts ≤ runsOfAll .arguments ts :=
  runsOfAll_le fun _ _ h => .someArguments h.entries_of_patterns

theorem one_le_arguments : 1 ≤ runsOfAll .arguments [] := by
  rintro _ rfl
  exact ⟨[], [], .noArguments, rfl, rfl⟩

theorem keyword_le {key : String} : spelt .key (key ++ ":") * runsOf (.tier 0) t ≤
    runsOfKeywords [.pair (.atom key) t] := by
  rintro _ ⟨_, ⟨l, rfl⟩, run, ⟨p, u, hd, hp, hu⟩, rfl⟩
  have htree : (Phrase.keyword ⟨.key, key ++ ":", l⟩ p).toTree = .ok (.pair (.atom key) u) := by
    simp [Phrase.toTree, hp, Phrase.keyName]
  refine ⟨_, _, .lastEntry (.keyword rfl hd), toTrees_singleton htree, ?_, ?_⟩
  · simp only [unlinedAll, unlined, hu]
  · simp [Phrase.isKeyword]

theorem keywords_cons_le {key : String} : spelt .key (key ++ ":") * runsOf (.tier 0) t *
    spelt (.sign .comma) mark' * runsOfKeywords ts ≤
      runsOfKeywords (.pair (.atom key) t :: ts) := by
  rintro _ ⟨_, ⟨_, ⟨_, ⟨l, rfl⟩, run, ⟨p, u, hd, hp, hu⟩, rfl⟩, _, ⟨l', rfl⟩, rfl⟩, rest,
    ⟨ps, us, hds, hps, hus, hkeys⟩, rfl⟩
  have htree : (Phrase.keyword ⟨.key, key ++ ":", l⟩ p).toTree = .ok (.pair (.atom key) u) := by
    simp [Phrase.toTree, hp, Phrase.keyName]
  have opening : (⟨.key, key ++ ":", l⟩ : Token).terminal = .key := rfl
  have comma : (⟨.sign .comma, mark', l'⟩ : Token).terminal = .sign .comma := rfl
  have := Derives.moreEntries (.keyword opening hd) comma hds
  refine ⟨_, _, by simpa using this, toTrees_cons htree hps, ?_, ?_⟩
  · simp only [unlinedAll, unlined, hu, hus]
  · exact List.forall_mem_cons.2 ⟨rfl, hkeys⟩

theorem keywords_le : runsOfKeywords ts ≤ runsOfAll .arguments ts := by
  rintro run ⟨ps, us, hd, hps, hus, -⟩
  exact ⟨ps, us, .someArguments hd, hps, hus⟩

theorem runsOfArguments_le : runsOfArguments .entries ts ≤ runsOfArguments .arguments ts := by
  rintro run ⟨ps, us, hd, h⟩
  exact ⟨ps, us, .someArguments hd, h⟩

theorem one_le_runsOfArguments : 1 ≤ runsOfArguments .arguments [] := by
  rintro _ rfl
  exact ⟨[], [], .noArguments, rfl, rfl⟩

theorem arguments_singleton_le : runsOf (.tier 0) t ≤ runsOfArguments .entries [t] := by
  rintro run ⟨p, u, hd, hp, hu⟩
  refine ⟨[p], [u], .lastEntry (.expression hd), toTrees_singleton hp, ?_⟩
  rw [gatherKeywords_cons hd.not_isKeyword]
  exact congrArg (· :: []) hu

theorem arguments_keywords_le : runsOfKeywords ts ≤ runsOfArguments .entries [.list ts] := by
  rintro run ⟨ps, us, hd, hps, hus, hkeys⟩
  refine ⟨ps, us, hd, hps, ?_⟩
  have hne : ps ≠ [] := by
    rintro rfl
    cases hd with
    | lastEntry h =>
      obtain ⟨p, hp⟩ := h.eq_singleton rfl
      cases hp
  rw [gatherKeywords_of_isKeyword hkeys (Phrase.length_toTrees hps) hne]
  simp only [unlinedAll, unlined, hus]

theorem arguments_cons_le : runsOf (.tier 0) t * spelt (.sign .comma) mark' *
    runsOfArguments .entries ts ≤ runsOfArguments .entries (t :: ts) := by
  rintro _ ⟨_, ⟨run, ⟨p, u, hd, hp, hu⟩, _, ⟨l, rfl⟩, rfl⟩, rest, ⟨ps, us, hds, hps, hus⟩, rfl⟩
  have comma : (⟨.sign .comma, mark', l⟩ : Token).terminal = .sign .comma := rfl
  have := Derives.moreEntries (.expression hd) comma hds
  refine ⟨p :: ps, u :: us, by simpa using this, toTrees_cons hp hps, ?_⟩
  rw [gatherKeywords_cons hd.not_isKeyword]
  simp only [unlinedAll, hu, hus]

theorem program_le : runsOf (.tier 0) t ≤ runsOf .program t := by
  rintro run ⟨p, u, hd, hp, hu⟩
  refine ⟨_, u, hd.program_of_tier, ?_, hu⟩
  simp only [Phrase.toTree, toTrees_singleton hp, ok_bind]
  rfl

theorem one_le_program : 1 ≤ runsOf .program .nil := by
  rintro _ rfl
  exact ⟨_, _, .noStatements (by simp [Separators]), rfl, rfl⟩

theorem body_le : runsOf .program t ≤ runsOf .body t :=
  runsOf_le fun _ _ => .statements

theorem clauses_le : runsOfAll .clauses ts ≤ runsOf .body (.list ts) := by
  rintro run ⟨ps, us, hd, hps, hus⟩
  have none : Separators [] := by simp [Separators]
  refine ⟨_, .list us, .clauses none hd, ?_, congrArg Tree.list hus⟩
  simp only [Phrase.toTree, hps, ok_bind, pure_eq_ok]

theorem clause_le : runsOfAll .patterns ts * spelt (.sign .arrow) mark' * runsOf .program t ≤
    runsOf .clause (.named "->" [.list ts, t] ⟨line, none⟩) := by
  rintro _ ⟨_, ⟨run, ⟨ps, us, hds, hps, hus⟩, _, ⟨l, rfl⟩, rfl⟩, rest, ⟨p, u, hd, hp, hu⟩, rfl⟩
  have arrow : (⟨.sign .arrow, mark', l⟩ : Token).terminal = .sign .arrow := rfl
  have := Derives.clause hds arrow hd
  let note : Annotation := ⟨some (Phrase.clause ps p).line, none⟩
  refine ⟨_, .named "->" [.list us, u] note, by simpa using this, ?_, ?_⟩
  · simp only [Phrase.toTree, hps, hp, ok_bind]
    rfl
  · simp only [Tree.named, unlined, unlinedAll, hus, hu, note]

theorem one_le_parts {w : String} : spelt (.word .endWord) w ≤ runsOfAll .parts [] := by
  rintro _ ⟨l, rfl⟩
  exact ⟨[], [], .noParts rfl, rfl, rfl⟩

theorem parts_cons_le {w : Word} {label : String} (h : w.opensSection) :
    spelt (.word w) label * runsOf .body t * runsOfAll .parts ts ≤
      runsOfAll .parts (.pair (.atom label) t :: ts) := by
  rintro _ ⟨_, ⟨_, ⟨l, rfl⟩, run, ⟨p, u, hd, hp, hu⟩, rfl⟩, rest, ⟨ps, us, hds, hps, hus⟩, rfl⟩
  have opening : (⟨.word w, label, l⟩ : Token).terminal = .word w := rfl
  have := Derives.moreParts opening h hd hds
  have htree : (Phrase.part ⟨.word w, label, l⟩ p).toTree = .ok (.pair (.atom label) u) := by
    simp only [Phrase.toTree, hp, ok_bind, pure_eq_ok]
  exact ⟨_, _, by simpa using this, toTrees_cons htree hps,
    by simp only [unlinedAll, unlined, hu, hus]⟩

theorem block_le {name label : String} : spelt .name name * runsOfArguments .arguments ts *
    spelt (.word .doWord) label * runsOf .body t * runsOfAll .parts us ≤
      runsOf .primary
        (.named name (ts ++ [.list (.pair (.atom label) t :: us)]) ⟨line, none⟩) := by
  rintro _ ⟨_, ⟨_, ⟨_, ⟨_, ⟨l, rfl⟩, inner, ⟨as, args, has, hargs, hts⟩, rfl⟩, _, ⟨l', rfl⟩, rfl⟩,
    run, ⟨p, u, hd, hp, hu⟩, rfl⟩, rest, ⟨ps, parts, hds, hps, hus⟩, rfl⟩
  have head : (⟨.name, name, l⟩ : Token).terminal = .name := rfl
  have opening : (⟨.word .doWord, label, l'⟩ : Token).terminal = .word .doWord := rfl
  have := Derives.block head has opening hd hds
  have htree : (Phrase.part ⟨.word .doWord, label, l'⟩ p).toTree =
      .ok (.pair (.atom label) u) := by
    simp only [Phrase.toTree, hp, ok_bind, pure_eq_ok]
  refine ⟨_, .named name (Phrase.gatherKeywords as args ++ [.list (.pair (.atom label) u :: parts)])
    ⟨some l, none⟩, by simpa using this, ?_, ?_⟩
  · simp only [Phrase.toTree, hargs, toTrees_cons htree hps, ok_bind]
    rfl
  · rw [unlinedAll_eq_map, unlinedAll_eq_map] at hts
    simp only [Tree.named, unlined, unlinedAll_eq_map, List.map_append, List.map_cons, List.map_nil,
      hts, hu] at hus ⊢
    rw [hus]

end Code

end EmbeddedTemplate
