import EmbeddedTemplate.Proofs.Code.Mentions
import EmbeddedTemplate.Proofs.Code.Parsing
import EmbeddedTemplate.Template.Placeholder

namespace EmbeddedTemplate

namespace Tree

def target? : Tree → Option Tree
  | .ref target _ | .call target _ _ => some target
  | _ => none

theorem calls_eq (t : Tree) :
    t.calls = (if t.isCall then [t] else []) ++ callsAll t.children := by
  cases t <;> simp [calls, isCall, children, callsAll]

theorem self_mem_calls {t : Tree} (h : t.isCall) : t ∈ t.calls := by
  rw [calls_eq, if_pos h]
  exact List.mem_cons_self ..

theorem mem_mentions_of_mem_calls (t : Tree) {u : Tree} {m : Mention} (hu : u ∈ t.calls)
    (hm : u.mention? = some m) : m ∈ t.mentions := by
  rw [calls_eq] at hu
  obtain hu | hu := List.mem_append.1 hu
  · obtain rfl : u = t := by
      split at hu
      · exact List.mem_singleton.1 hu
      · cases hu
    rw [mentions_eq, hm]
    exact List.mem_cons_self ..
  · obtain ⟨c, hc, hu⟩ := mem_callsAll.1 hu
    exact mem_mentions_of_mem_children hc (mem_mentions_of_mem_calls c hu hm)
termination_by sizeOf t
decreasing_by exact sizeOf_lt_of_mem_children hc

end Tree

namespace Code

open EmbeddedTemplate.Tree

namespace Phrase

/-- A name of a phrase itself: of a variable, a call or a block, behind an at sign or a point. -/
inductive HasName : Phrase → Token → Prop
  | name {t} : HasName (name t) t
  | call {t args} : HasName (call t args) t
  | block {t args parts} : HasName (block t args parts) t
  | assign {atSign t} : HasName (assign atSign t) t
  | remoteCall {target t args} : HasName (remoteCall target t args) t
  | field {target t} : HasName (field target t) t

inductive MakesNamed [CharacterNames] : Phrase → Tree → Prop
  | name {t u} : (name t).toTree = .ok u → MakesNamed (name t) u
  | call {t args u} : (call t args).toTree = .ok u → MakesNamed (call t args) u
  | block {t args parts u} : (block t args parts).toTree = .ok u →
      MakesNamed (block t args parts) u
  | assign {atSign t u note} : (assign atSign t).toTree = .ok (.named "@" [u] note) →
      MakesNamed (assign atSign t) u

inductive MakesMember [CharacterNames] : Phrase → Tree → Prop
  | remoteCall {target t args u note trees} :
      (remoteCall target t args).toTree = .ok (.call u note trees) →
      MakesMember (remoteCall target t args) u
  | field {target t u note} : (field target t).toTree = .ok (.call u note []) →
      MakesMember (field target t) u

variable {p q : Phrase} {ps : List Phrase} {t : Token} {u tree : Tree} {trees : List Tree}

theorem MakesNamed.exists_name [CharacterNames] (h : p.MakesNamed u) :
    ∃ t w, p.HasName t ∧ p.toTree = .ok w ∧
    u ∈ w.calls ∧ u.target? = some (.str t.text) := by
  cases h with
  | @name t _ h =>
    refine ⟨t, u, .name, h, ?_⟩
    cases h
    exact ⟨self_mem_calls rfl, rfl⟩
  | @call t args _ h =>
    refine ⟨t, u, .call, h, ?_⟩
    obtain ⟨as, -, rfl⟩ := toTree_call_eq_ok.1 h
    exact ⟨self_mem_calls rfl, rfl⟩
  | @block t args parts _ h =>
    refine ⟨t, u, .block, h, ?_⟩
    obtain ⟨as, -, ps, -, rfl⟩ := toTree_block_eq_ok.1 h
    exact ⟨self_mem_calls rfl, rfl⟩
  | @assign atSign t _ note h =>
    refine ⟨t, _, .assign, h, ?_⟩
    cases h
    exact ⟨by simp [Tree.named, Tree.calls, callsAll, Tree.var], rfl⟩

theorem HasName.exists_node [CharacterNames] (hn : p.HasName t) (h : p.toTree = .ok tree) :
    (∃ u ∈ tree.calls, p.MakesNamed u ∧ u.target? = some (.str t.text)) ∨
      ∃ owner note, .named "." [owner, .atom t.text] note ∈ tree.calls ∧
        p.MakesMember (.named "." [owner, .atom t.text] note) := by
  cases hn with
  | name =>
    cases h
    exact .inl ⟨_, self_mem_calls rfl, .name rfl, rfl⟩
  | call =>
    obtain ⟨as, -, rfl⟩ := toTree_call_eq_ok.1 h
    exact .inl ⟨_, self_mem_calls rfl, .call h, rfl⟩
  | block =>
    obtain ⟨as, -, ps, -, rfl⟩ := toTree_block_eq_ok.1 h
    exact .inl ⟨_, self_mem_calls rfl, .block h, rfl⟩
  | assign =>
    cases h
    exact .inl ⟨_, by simp [Tree.named, Tree.calls, callsAll, Tree.var], .assign rfl, rfl⟩
  | remoteCall =>
    obtain ⟨owner, -, as, -, rfl⟩ := toTree_remoteCall_eq_ok.1 h
    exact .inr ⟨owner, _, by simp [Tree.remote, Tree.named, Tree.calls], .remoteCall h⟩
  | field =>
    obtain ⟨owner, -, rfl⟩ := toTree_field_eq_ok.1 h
    exact .inr ⟨owner, _, by simp [Tree.named, Tree.calls], .field h⟩

def Held [CharacterNames] (us : List Tree) (q : Phrase) :
    Prop := ∃ v, q.toTree = .ok v ∧ v.calls ⊆ us

theorem Held.mono [CharacterNames] {us vs : List Tree} (h : Held us q) (hs : us ⊆ vs) :
    Held vs q := by
  obtain ⟨v, hv, hc⟩ := h
  exact ⟨v, hv, List.Subset.trans hc hs⟩

theorem calls_subset_gatherKeywords (hl : trees.length = ps.length) :
    callsAll trees ⊆ callsAll (gatherKeywords ps trees) := by
  have hp := ((ps.zip trees).filter_append_perm fun e => !e.1.isKeyword).map (·.2)
  rw [List.map_append, List.map_snd_zip (Nat.le_of_eq hl)] at hp
  simp only [Bool.not_not] at hp
  intro u hu
  obtain ⟨v, hv, hu⟩ := mem_callsAll.1 hu
  unfold gatherKeywords
  dsimp only
  split
  · next hk =>
    rw [List.isEmpty_iff.1 hk, List.append_nil] at hp
    exact mem_callsAll.2 ⟨v, hp.mem_iff.2 hv, hu⟩
  · rw [callsAll_append]
    obtain hv | hv := List.mem_append.1 (hp.mem_iff.2 hv)
    · exact List.mem_append_left _ (mem_callsAll.2 ⟨v, hv, hu⟩)
    · have hlist : u ∈ (Tree.list _).calls := mem_callsAll.2 ⟨v, hv, hu⟩
      exact List.mem_append_right _ (mem_callsAll.2 ⟨_, List.mem_singleton.2 rfl, hlist⟩)

mutual

theorem held_forms [CharacterNames] (p : Phrase) {tree : Tree} (h : p.toTree = .ok tree) :
    ∀ q ∈ p.forms, Held tree.calls q := by
  have self : Held tree.calls p := ⟨tree, h, List.Subset.refl _⟩
  have within {us : List Tree} {qs : List Phrase} (hq : ∀ q ∈ qs, Held us q)
      (hs : us ⊆ tree.calls) : ∀ q ∈ qs, Held tree.calls q := fun q hm => (hq q hm).mono hs
  cases p with
  | literal | name | modulePath | assign => exact List.forall_mem_singleton.2 self
  | call t args =>
    obtain ⟨as, ha, rfl⟩ := toTree_call_eq_ok.1 h
    have hargs := calls_subset_gatherKeywords (length_toTrees ha)
    refine List.forall_mem_cons.2 ⟨self, within (held_formsAll args ha) ?_⟩
    simp_all [Tree.named, Tree.calls, List.subset_def]
  | block t args parts =>
    obtain ⟨as, ha, ps, hp, rfl⟩ := toTree_block_eq_ok.1 h
    have hargs := calls_subset_gatherKeywords (length_toTrees ha)
    refine List.forall_mem_cons.2 ⟨self, List.forall_mem_append.2
      ⟨within (held_formsAll args ha) ?_, within (held_formsAll parts hp) ?_⟩⟩ <;>
      simp_all [Tree.named, Tree.calls, callsAll_append, callsAll, List.subset_def]
  | parens opening inner =>
    exact List.forall_mem_cons.2 ⟨self, held_forms inner h⟩
  | list opening items =>
    obtain ⟨ts, ht, rfl⟩ := toTree_list_eq_ok.1 h
    exact List.forall_mem_cons.2 ⟨self, held_formsAll items ht⟩
  | tuple opening items =>
    simp only [toTree, bind_eq_ok] at h
    obtain ⟨ts, ht, h⟩ := h
    refine List.forall_mem_cons.2 ⟨self, within (held_formsAll items ht) ?_⟩
    split at h <;> cases h <;> simp +contextual [Tree.named, Tree.calls, callsAll, List.subset_def]
  | unary op operand =>
    obtain ⟨t, ht, rfl⟩ := toTree_unary_eq_ok.1 h
    refine List.forall_mem_cons.2 ⟨self, within (held_forms operand ht) ?_⟩
    simp [Tree.named, Tree.calls, callsAll]
  | binary left op right =>
    obtain ⟨t, ht, v, hv, rfl⟩ := toTree_binary_eq_ok.1 h
    refine List.forall_mem_cons.2 ⟨self, List.forall_mem_append.2
      ⟨within (held_forms left ht) ?_, within (held_forms right hv) ?_⟩⟩ <;>
      simp [Tree.named, Tree.calls, callsAll]
  | remoteCall target t args =>
    obtain ⟨owner, ho, as, ha, rfl⟩ := toTree_remoteCall_eq_ok.1 h
    have hargs := calls_subset_gatherKeywords (length_toTrees ha)
    refine List.forall_mem_cons.2 ⟨self, List.forall_mem_append.2
      ⟨within (held_forms target ho) ?_, within (held_formsAll args ha) ?_⟩⟩ <;>
      simp_all [Tree.remote, Tree.named, Tree.calls, callsAll, List.subset_def]
  | field target t =>
    obtain ⟨owner, ho, rfl⟩ := toTree_field_eq_ok.1 h
    refine List.forall_mem_cons.2 ⟨self, within (held_forms target ho) ?_⟩
    simp +contextual [Tree.named, Tree.calls, callsAll, List.subset_def]
  | access target key =>
    obtain ⟨t, ht, v, hv, rfl⟩ := toTree_access_eq_ok.1 h
    refine List.forall_mem_cons.2 ⟨self, List.forall_mem_append.2
      ⟨within (held_forms target ht) ?_, within (held_forms key hv) ?_⟩⟩ <;>
      simp +contextual [Tree.remote, Tree.named, Tree.calls, callsAll, List.subset_def]
  | keyword key value =>
    obtain ⟨t, ht, rfl⟩ := toTree_keyword_eq_ok.1 h
    refine List.forall_mem_cons.2 ⟨self, within (held_forms value ht) ?_⟩
    simp [Tree.calls]
  | statements phrases =>
    simp only [toTree, bind_eq_ok] at h
    obtain ⟨ts, ht, h⟩ := h
    refine List.forall_mem_cons.2 ⟨self, within (held_formsAll phrases ht) ?_⟩
    split at h <;> cases h <;> simp [Tree.named, Tree.calls, callsAll]
  | clauses phrases =>
    obtain ⟨ts, ht, rfl⟩ := toTree_clauses_eq_ok.1 h
    exact List.forall_mem_cons.2 ⟨self, held_formsAll phrases ht⟩
  | clause patterns body =>
    obtain ⟨ts, ht, t, hb, rfl⟩ := toTree_clause_eq_ok.1 h
    refine List.forall_mem_cons.2 ⟨self, List.forall_mem_append.2
      ⟨within (held_formsAll patterns ht) ?_, within (held_forms body hb) ?_⟩⟩ <;>
      simp +contextual [Tree.named, Tree.calls, callsAll, List.subset_def]
  | part label body =>
    obtain ⟨t, ht, rfl⟩ := toTree_part_eq_ok.1 h
    refine List.forall_mem_cons.2 ⟨self, within (held_forms body ht) ?_⟩
    simp [Tree.calls]

theorem held_formsAll [CharacterNames] (ps : List Phrase) {trees : List Tree}
    (h : toTrees ps = .ok trees) :
    ∀ q ∈ formsAll ps, Held (callsAll trees) q := by
  cases ps with
  | nil => exact nofun
  | cons p ps =>
    obtain ⟨t, ht, ts, hts, rfl⟩ := toTrees_cons_eq_ok.1 h
    refine List.forall_mem_append.2 ⟨fun q hq => ?_, fun q hq => ?_⟩
    · exact (held_forms p ht q hq).mono (List.subset_append_left _ _)
    · exact (held_formsAll ps hts q hq).mono (List.subset_append_right _ _)

end

end Phrase

variable {c : Category} {ts : List Token} {ps : List Phrase}

/-- The names among tokens are those of the phrases that they are read as, however they are read. -/
theorem Derives.mem_iff_hasName {t : Token} (h : Derives c ts ps) :
    t ∈ ts ∧ t.terminal = .name ↔ ∃ q ∈ Phrase.formsAll ps, q.HasName t := by
  induction h
  case' binary ho _ _ _ => have := Terminal.isApart_of_tier? ho
  case' unary ho _ _ => have := Terminal.isApart_of_isUnary ho
  case' literal ho => have := Terminal.isApart_of_isLiteral ho
  all_goals
    simp_all [Phrase.formsAll, Phrase.forms, Terminal.isApart, or_and_right, exists_or, Separators]
  all_goals grind [cases Phrase.HasName, Phrase.HasName]

theorem placeholderKey?_of_parse [CharacterNames] {code : String} {line : Int} {tree u : Tree}
    (h : parse code line = .ok tree) (hn : reservedName ∉ names code) (hu : u ∈ tree.calls) :
    Template.placeholderKey? u = none := by
  obtain ⟨-, ts, ms, hts, hm, hused⟩ := mentions_of_parse h
  have hfree : ∀ t ∈ ts, t.isReserved = false := by
    simpa using (mem_names_iff hts).not.1 hn
  rw [Used, sites_eq_nil hfree] at hused
  cases hused
  unfold Template.placeholderKey?
  split
  · next note key =>
    refine if_neg ?_
    rintro rfl
    have := mem_mentions_of_mem_calls tree hu (mention?_reserved _ _)
    rw [hm.eq_nil] at this
    cases this
  · rfl

variable {code : String} {line : Int} {p : Phrase} {tree : Tree}

theorem Derives.exists_name [CharacterNames] (hts : Lexed.tokensAt? line code.toList = some ts)
    (hd : Derives .program ts [p]) (hp : p.toTree = .ok tree) :
    ∀ q ∈ p.forms, ∀ u, q.MakesNamed u → u ∈ tree.calls ∧
      ∃ name ∈ names code, u.target? = some (.str name) := by
  intro q hq u hu
  obtain ⟨t, w, ht, hw, huw, htarget⟩ := hu.exists_name
  obtain ⟨v, hv, hs⟩ := p.held_forms hp q hq
  cases hw.symm.trans hv
  obtain ⟨hm, hterminal⟩ := hd.mem_iff_hasName.2 ⟨q, by simpa [Phrase.formsAll] using hq, ht⟩
  exact ⟨hs huw, t.text, (mem_names hts).2 ⟨t, hm, hterminal, rfl⟩, htarget⟩

theorem Derives.exists_node [CharacterNames] (hts : Lexed.tokensAt? line code.toList = some ts)
    (hd : Derives .program ts [p]) (hp : p.toTree = .ok tree) : ∀ name ∈ names code,
    (∃ q ∈ p.forms, ∃ u ∈ tree.calls, q.MakesNamed u ∧ u.target? = some (.str name)) ∨
      ∃ q ∈ p.forms, ∃ owner note, .named "." [owner, .atom name] note ∈ tree.calls ∧
        q.MakesMember (.named "." [owner, .atom name] note) := by
  intro name hname
  obtain ⟨t, hm, hterminal, rfl⟩ := (mem_names hts).1 hname
  obtain ⟨q, hq, ht⟩ := hd.mem_iff_hasName.1 ⟨hm, hterminal⟩
  rw [Phrase.formsAll, Phrase.formsAll, List.append_nil] at hq
  obtain ⟨v, hv, hs⟩ := p.held_forms hp q hq
  obtain ⟨u, hu, hmakes⟩ | ⟨owner, note, hu, hmakes⟩ := ht.exists_node hv
  · exact .inl ⟨q, hq, u, hs hu, hmakes⟩
  · exact .inr ⟨q, hq, owner, note, hs hu, hmakes⟩

/--
However code is read as a tree, the nodes that are made for variables, calls, blocks and the
variables of forms `@name` have names of the code as their targets, and each name of the code is the
target of such a node or stands behind the point of a remote call or a field. So the tree of code
without the reserved name has no placeholder.
-/
theorem names_of_parse [CharacterNames] (h : parse code line = .ok tree) :
    let tokens := (Lexed.ofCode code line).tokens
    (∃ p, Derives .program tokens [p] ∧ p.toTree = .ok tree) ∧
      (∀ p, Derives .program tokens [p] → p.toTree = .ok tree →
        (∀ q ∈ p.forms, ∀ u, q.MakesNamed u → u ∈ tree.calls ∧
          ∃ name ∈ names code, u.target? = some (.str name)) ∧
        ∀ name ∈ names code,
          (∃ q ∈ p.forms, ∃ u ∈ tree.calls, q.MakesNamed u ∧ u.target? = some (.str name)) ∨
            ∃ q ∈ p.forms, ∃ owner note, .named "." [owner, .atom name] note ∈ tree.calls ∧
              q.MakesMember (.named "." [owner, .atom name] note)) ∧
      (reservedName ∉ names code → ∀ u ∈ tree.calls, Template.placeholderKey? u = none) := by
  intro tokens
  obtain ⟨hr, hd⟩ : Explains code line (.ok tree) := h ▸ explains_parse code line
  have hts : Lexed.tokensAt? line code.toList = some tokens :=
    if_pos (Option.isNone_iff_eq_none.2 hr)
  exact ⟨hd, fun p hd hp => ⟨hd.exists_name hts hp, hd.exists_node hts hp⟩,
    fun hn u hu => placeholderKey?_of_parse h hn hu⟩

theorem names_of_parse_block :
    let code := "f @y, k: x.g do m.h(z) end"
    ∃ tree, parse code 1 = .ok tree ∧
      (∃ p, Derives .program (Lexed.ofCode code 1).tokens [p] ∧ p.toTree = .ok tree ∧
        ∀ q ∈ p.forms, ∀ u, q.MakesNamed u → ∃ name ∈ ["f", "y", "x", "g", "m", "h", "z"],
          u.target? = some (.str name)) ∧
      ∀ u ∈ tree.calls, Template.placeholderKey? u = none := by
  intro code
  obtain ⟨tree, h⟩ : ∃ tree, parse code 1 = .ok tree := isSome_toOption.1 (by decide +kernel)
  have hnames : names code = ["f", "y", "x", "g", "m", "h", "z"] := by decide +kernel
  obtain ⟨⟨p, hd, hp⟩, hall, hfree⟩ := names_of_parse h
  refine ⟨tree, h, ⟨p, hd, hp, fun q hq u hu => ?_⟩, hfree (by rw [hnames]; decide)⟩
  exact hnames ▸ ((hall p hd hp).1 q hq u hu).2

end Code

end EmbeddedTemplate
