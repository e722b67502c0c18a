import EmbeddedTemplate.Proofs.Code.Lines
import EmbeddedTemplate.Proofs.Code.Splitting
import EmbeddedTemplate.Proofs.Code.Uses

namespace EmbeddedTemplate.Code

open EmbeddedTemplate.Tree

def Phrase.Spelled : Phrase → Prop
  | .unary op _ | .binary _ op _ => op.text ≠ reservedName ∧ op.text ≠ "."
  | .call t _ | .block t _ _ => t.text ≠ "."
  | _ => True

namespace Token

variable {t : Token} {k : Nat}

theorem Spelled.name_ne (h : t.Spelled) (ht : t.terminal = .name) : t.text ≠ "." := by
  obtain ⟨c, hc, hn⟩ := h.name ht
  rintro hd
  rw [hd] at hc
  obtain rfl : c = '.' := by simpa using hc.symm
  exact absurd hn (by decide)

theorem Spelled.operator_ne (h : t.Spelled) (ht : t.terminal.tier?.isSome ∨ t.terminal.isUnary) :
    t.text ≠ reservedName ∧ t.text ≠ "." := by
  have := h.text
  cases hu : t.terminal with
  | word w =>
    rw [hu] at this
    rw [this _ rfl]
    cases w <;> decide
  | sign s =>
    rw [hu] at this ht
    rw [this _ rfl]
    cases s <;> first | decide | (exact absurd ht (by decide))
  | _ =>
    rw [hu] at ht
    exact absurd ht (by decide)

end Token

theorem Derives.spelled {c : Category} {ts : List Token} {ps : List Phrase} (h : Derives c ts ps)
    (hs : ∀ t ∈ ts, t.Spelled) : ∀ q ∈ Phrase.formsAll ps, q.Spelled := by
  induction h with
  | _ =>
    simp_all [Phrase.formsAll, Phrase.forms] <;>
      grind [Phrase.Spelled, Token.Spelled.name_ne, Token.Spelled.operator_ne]

structure Mirrors (ms : List Mention) (ts : List Tree) : Prop where
  mentions : (mentionsAll ts).Perm ms
  ofCode : ∀ t ∈ ts, t.OfCode

namespace Mirrors

variable {ms ns : List Mention} {t u left right owner : Tree} {ts us args : List Tree}
variable {name : String} {note dotNote : Annotation}

theorem nil : Mirrors [] [] := ⟨.nil, by simp⟩

theorem cons (h : Mirrors ms [t]) (hs : Mirrors ns ts) : Mirrors (ms ++ ns) (t :: ts) where
  mentions := by
    have := h.mentions
    rw [mentionsAll_cons, mentionsAll_nil, List.append_nil] at this
    exact this.append hs.mentions
  ofCode := List.forall_mem_cons.2 ⟨h.ofCode t (List.mem_cons_self ..), hs.ofCode⟩

theorem append (h : Mirrors ms ts) (hs : Mirrors ns us) : Mirrors (ms ++ ns) (ts ++ us) where
  mentions := by
    rw [mentionsAll_append]
    exact h.mentions.append hs.mentions
  ofCode := List.forall_mem_append.2 ⟨h.ofCode, hs.ofCode⟩

theorem perm (h : Mirrors ms ts) (hp : us.Perm ts) : Mirrors ms us where
  mentions := by
    have hf (ts : List Tree) : mentionsAll ts = ts.flatMap Tree.mentions := by
      induction ts with
      | nil => rfl
      | cons t ts ih => rw [mentionsAll_cons, List.flatMap_cons, ih]
    rw [hf]
    exact (hp.flatMap_right _).trans (hf ts ▸ h.mentions)
  ofCode t ht := h.ofCode t (hp.mem_iff.1 ht)

theorem append_list (h : Mirrors ms (ts ++ us)) : Mirrors ms (ts ++ [.list us]) where
  mentions := by simpa [mentions_eq, mention?, children] using h.mentions
  ofCode := by
    obtain ⟨ht, hu⟩ := List.forall_mem_append.1 h.ofCode
    exact List.forall_mem_append.2 ⟨ht, by simpa using .list hu⟩

theorem literal (h : t.isLiteral) : Mirrors [] [t] where
  mentions := by simp [mentions_of_isLiteral h]
  ofCode := by simpa using .literal h

theorem list (h : Mirrors ms ts) : Mirrors ms [.list ts] where
  mentions := by simpa [mentions_eq, mention?, children] using h.mentions
  ofCode := by simpa using .list h.ofCode

theorem pair (h : Mirrors ms [left, right]) : Mirrors ms [.pair left right] where
  mentions := by simpa [mentions_eq (.pair ..), mention?, children] using h.mentions
  ofCode := by simpa using .pair (h.ofCode left (by simp)) (h.ofCode right (by simp))

theorem named (hn : name ≠ ".") (h : Mirrors ms args) :
    Mirrors ((if name = reservedName then [.ofCall args] else []) ++ ms)
      [.named name args note] where
  mentions := by
    have hm : (Tree.named name args note).mention?.toList =
        if name = reservedName then [.ofCall args] else [] := by
      split
      · next h => rw [h, Tree.named, mention?_reserved, Option.toList_some]
      · next h => rw [Tree.named, mention?_named h hn, Option.toList_none]
    rw [mentionsAll_cons, mentionsAll_nil, List.append_nil, mentions_eq, hm]
    exact h.mentions.append_left _
  ofCode := by simpa using .named hn h.ofCode

theorem remote (ho : Mirrors ms [owner]) (ha : Mirrors ns args) :
    Mirrors (ms ++ (if name = reservedName then [.stray] else []) ++ ns)
      [.call (.named "." [owner, .atom name] dotNote) note args] where
  mentions := by
    have hdot : (Tree.named "." [owner, .atom name] dotNote).mentions =
        (if name = reservedName then [.stray] else []) ++ owner.mentions := by
      rw [mentions_eq, Tree.named, mention?_dot]
      split <;> simp [children]
    have ho := ho.mentions
    rw [mentionsAll_cons, mentionsAll_nil, List.append_nil] at ho
    have hnone : (Tree.call (.named "." [owner, .atom name] dotNote) note args).mention? = none :=
      rfl
    rw [mentionsAll_cons, mentionsAll_nil, List.append_nil, mentions_eq, hnone, children,
      mentionsAll_cons, hdot, Option.toList_none, List.nil_append]
    exact (List.perm_append_comm.trans (ho.append_right _)).append ha.mentions
  ofCode := by
    have hdot : OfCode (.named "." [owner, .atom name] dotNote) :=
      .dot (ho.ofCode owner (List.mem_cons_self ..))
    simpa using .remote hdot ha.ofCode

theorem remote_of_ne (hn : name ≠ reservedName) (ho : Mirrors ms [owner]) (ha : Mirrors ns args) :
    Mirrors (ms ++ ns) [.call (.named "." [owner, .atom name] dotNote) note args] := by
  have h : Mirrors (ms ++ (if name = reservedName then [.stray] else []) ++ ns)
    [.call (.named "." [owner, .atom name] dotNote) note args] := ho.remote ha
  rwa [if_neg hn, List.append_nil] at h

theorem plain (hn : name ≠ reservedName ∧ name ≠ ".") (h : Mirrors ms args) :
    Mirrors ms [.named name args note] := by
  have hnamed : Mirrors ((if name = reservedName then [.ofCall args] else []) ++ ms)
    [.named name args note] := h.named hn.2
  rwa [if_neg hn.1] at hnamed

theorem var : Mirrors (if name = reservedName then [.stray] else []) [.var name note] where
  mentions := by
    rw [mentionsAll_cons, mentionsAll_nil, List.append_nil, mentions_eq, Tree.var, mention?_var]
    split <;> simp [children]
  ofCode := by simpa using .var

end Mirrors

theorem ofCall_append_list (ts us : List Tree) : Mention.ofCall (ts ++ [.list us]) = .stray := by
  cases ts with
  | nil => rfl
  | cons t ts => cases ts <;> cases t <;> rfl

namespace Phrase

theorem mirrors_gatherKeywords {ms : List Mention} {ps : List Phrase} {ts : List Tree}
    (h : Mirrors ms ts) (hl : ts.length = ps.length) : Mirrors ms (gatherKeywords ps ts) := by
  have hp := ((ps.zip ts).filter_append_perm fun e => !e.1.isKeyword).map (·.2)
  rw [List.map_append, List.map_snd_zip (Nat.le_of_eq hl)] at hp
  have h := h.perm hp
  simp only [Bool.not_not] at h
  unfold gatherKeywords
  dsimp only
  split
  · next hk => simpa [List.isEmpty_iff.1 hk] using h
  · exact h.append_list

mutual

theorem mirrors_toTree [CharacterNames] (p : Phrase) (hs : ∀ q ∈ p.forms, q.Spelled) {t : Tree}
    (h : p.toTree = .ok t) : Mirrors p.uses [t] := by
  have hself := hs p p.self_mem_forms
  cases p with
  | literal tok => exact .literal (isLiteral_of_value h)
  | name tok =>
    cases h
    exact .var
  | modulePath tok =>
    cases h
    change Mirrors [] _
    refine .plain (by decide) ⟨?_, ?_⟩
    · induction tok.text.splitOn "." <;> simp_all
    · exact List.forall_mem_map.2 fun _ _ => .literal rfl
  | assign atSign tok =>
    cases h
    exact .plain (by decide) .var
  | call tok args =>
    obtain ⟨as, ha, rfl⟩ := toTree_call_eq_ok.1 h
    have hargs := mirrors_toTrees args (by simp_all [forms]) ha
    have hg := mirrors_gatherKeywords hargs (length_toTrees ha)
    have hm : callMention args = .ofCall (gatherKeywords args as) := by
      simp only [callMention, ha]
    rw [uses, Token.use, hm]
    exact hg.named hself
  | block tok args parts =>
    obtain ⟨as, ha, ps, hp, rfl⟩ := toTree_block_eq_ok.1 h
    have hargs := mirrors_toTrees args (by simp_all [forms]) ha
    have hg := mirrors_gatherKeywords hargs (length_toTrees ha)
    have hparts := (mirrors_toTrees parts (by simp_all [forms]) hp).list
    rw [uses, List.append_assoc, Token.use, ← ofCall_append_list (gatherKeywords args as) ps]
    exact (hg.append hparts).named hself
  | parens opening inner =>
    exact mirrors_toTree inner (by simp_all [forms]) h
  | list opening items =>
    obtain ⟨ts, ht, rfl⟩ := toTree_list_eq_ok.1 h
    exact (mirrors_toTrees items (by simp_all [forms]) ht).list
  | tuple opening items =>
    simp only [toTree, bind_eq_ok] at h
    obtain ⟨ts, ht, h⟩ := h
    have hitems := mirrors_toTrees items (by simp_all [forms]) ht
    split at h <;> cases h
    · exact hitems.pair
    · exact hitems.plain (by decide)
  | unary op operand =>
    obtain ⟨t, ht, rfl⟩ := toTree_unary_eq_ok.1 h
    exact (mirrors_toTree operand (by simp_all [forms]) ht).plain hself
  | binary left op right =>
    obtain ⟨t, ht, u, hu, rfl⟩ := toTree_binary_eq_ok.1 h
    have hl := mirrors_toTree left (by simp_all [forms]) ht
    exact (hl.cons (mirrors_toTree right (by simp_all [forms]) hu)).plain hself
  | remoteCall target tok args =>
    obtain ⟨t, ht, as, ha, rfl⟩ := toTree_remoteCall_eq_ok.1 h
    have hargs := mirrors_toTrees args (by simp_all [forms]) ha
    have hg := mirrors_gatherKeywords hargs (length_toTrees ha)
    exact (mirrors_toTree target (by simp_all [forms]) ht).remote hg
  | field target tok =>
    obtain ⟨t, ht, rfl⟩ := toTree_field_eq_ok.1 h
    rw [← List.append_nil (uses _)]
    exact (mirrors_toTree target (by simp_all [forms]) ht).remote .nil
  | access target key =>
    obtain ⟨t, ht, u, hu, rfl⟩ := toTree_access_eq_ok.1 h
    have ht := mirrors_toTree target (by simp_all [forms]) ht
    have hu := mirrors_toTree key (by simp_all [forms]) hu
    have hm : Mirrors [] [Tree.moduleName ["Access"] { line := some (access target key).line }] :=
      .plain (by decide) (.literal rfl)
    change Mirrors ([] ++ (target.uses ++ key.uses)) _
    exact hm.remote_of_ne (by decide) (ht.cons hu)
  | keyword key value =>
    obtain ⟨t, ht, rfl⟩ := toTree_keyword_eq_ok.1 h
    exact ((Mirrors.literal rfl).cons (mirrors_toTree value (by simp_all [forms]) ht)).pair
  | statements phrases =>
    simp only [toTree, bind_eq_ok] at h
    obtain ⟨ts, ht, h⟩ := h
    have hs := mirrors_toTrees phrases (by simp_all [forms]) ht
    split at h <;> cases h
    · have := hs.append (.literal (t := .nil) rfl)
      rwa [List.append_nil] at this
    · exact hs
    · exact hs.plain (by decide)
  | clauses phrases =>
    obtain ⟨ts, ht, rfl⟩ := toTree_clauses_eq_ok.1 h
    exact (mirrors_toTrees phrases (by simp_all [forms]) ht).list
  | clause patterns body =>
    obtain ⟨ts, ht, t, hb, rfl⟩ := toTree_clause_eq_ok.1 h
    have hp := (mirrors_toTrees patterns (by simp_all [forms]) ht).list
    exact (hp.cons (mirrors_toTree body (by simp_all [forms]) hb)).plain (by decide)
  | part label body =>
    obtain ⟨t, ht, rfl⟩ := toTree_part_eq_ok.1 h
    exact ((Mirrors.literal rfl).cons (mirrors_toTree body (by simp_all [forms]) ht)).pair

theorem mirrors_toTrees [CharacterNames] (ps : List Phrase) (hs : ∀ q ∈ formsAll ps, q.Spelled)
    {ts : List Tree} (h : toTrees ps = .ok ts) : Mirrors (usesAll ps) ts := by
  cases ps with
  | nil =>
    cases h
    exact .nil
  | cons p ps =>
    obtain ⟨t, ht, ts, hts, rfl⟩ := toTrees_cons_eq_ok.1 h
    obtain ⟨hp, hps⟩ := List.forall_mem_append.1 hs
    exact (mirrors_toTree p hp ht).cons (mirrors_toTrees ps hps hts)

end

end Phrase

/-- In the tree of code the reserved name stands as the places of the tokens let it. -/
theorem mentions_of_parse [CharacterNames] {code : String} {line : Int} {tree : Tree}
    (h : parse code line = .ok tree) : tree.OfCode ∧
      ∃ ts ms, Lexed.tokensAt? line code.toList = some ts ∧ tree.mentions.Perm ms ∧
        Used false [] ts ms := by
  unfold parse at h
  dsimp only at h
  split at h
  · next phrase hp hr =>
    cases ht : phrase.toTree with
    | error e =>
      rw [ht] at h
      cases h
    | ok t =>
      rw [ht] at h
      cases h
      have hd := Phrase.derives_of_ofTokens hp
      have hs := hd.spelled fun t ht => Lexed.spelled_of_mem_tokens ht
      have hm := phrase.mirrors_toTree (by simpa [Phrase.formsAll] using hs) ht
      have hts : Lexed.tokensAt? line code.toList = some (Lexed.ofCode code line).tokens :=
        if_pos (Option.isNone_iff_eq_none.2 hr)
      exact ⟨hm.ofCode _ (List.mem_cons_self ..), _, phrase.uses, hts, by simpa using hm.mentions,
        by simpa using hd.used rfl⟩
  · cases h
  · cases h

def endsInPoint (code : String) : Bool := dottedAfter false ((tokens? code).getD [])

section

variable {code : String} {line : Int} {ts : List Token}

theorem exists_tokens? (h : Lexed.tokensAt? line code.toList = some ts) :
    ∃ us, tokens? code = some us ∧ us.map Token.spelling = ts.map Token.spelling := by
  have := Lexed.spelling_tokensAt? line 1 code.toList
  rw [h, ← tokensAt?_of_tokens?] at this
  obtain ⟨us, hu, hs⟩ := Option.map_eq_some_iff.1 this.symm
  exact ⟨us, hu, hs⟩

theorem mem_names (h : Lexed.tokensAt? line code.toList = some ts) {name : String} :
    name ∈ names code ↔ ∃ t ∈ ts, t.terminal = .name ∧ t.text = name := by
  obtain ⟨us, hu, hs⟩ := exists_tokens? h
  have hmem (ts : List Token) : (∃ t ∈ ts, t.terminal = .name ∧ t.text = name) ↔
      (.name, name) ∈ ts.map Token.spelling := by
    simp [Token.spelling]
  rw [hmem ts, ← hs, ← hmem us, names, hu]
  simp [and_assoc]

theorem mem_names_iff (h : Lexed.tokensAt? line code.toList = some ts) :
    reservedName ∈ names code ↔ ∃ t ∈ ts, t.isReserved := by
  rw [mem_names h]
  simp [Token.isReserved]

theorem dottedAfter_tokensAt? (h : Lexed.tokensAt? line code.toList = some ts) :
    dottedAfter false ts = endsInPoint code := by
  obtain ⟨us, hu, hs⟩ := exists_tokens? h
  have hlast (ts : List Token) :
      dottedAfter false ts = (ts.map Token.spelling).getLast?.elim false (·.1 = .sign .dot) := by
    rw [dottedAfter, List.getLast?_map]
    cases ts.getLast? <;> rfl
  rw [hlast ts, ← hs, ← hlast us, endsInPoint, hu]
  rfl

end

end EmbeddedTemplate.Code
