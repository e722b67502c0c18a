import EmbeddedTemplate.Code.Printer
import EmbeddedTemplate.Proofs.Code.Rereading

namespace EmbeddedTemplate

namespace Tree

def isBlock : Tree → Bool
  | .call (.str name) _ args => (Code.spelled? name).isNone && name ≠ "\x7b\x7d" &&
      args.getLast?.any Code.Printer.isSections
  | _ => false

def Blockless (t : Tree) : Prop := ∀ u ∈ t.calls, u.isBlock = false

end Tree

namespace Code

open EmbeddedTemplate.Tree

variable {c : Category} {t : Token} {ts us : List Token} {ps : List Phrase} {p : Phrase}
variable {trees : List Tree} {tree : Tree}

def HasDo (ts : List Token) : Prop := ∃ t ∈ ts, t.terminal = .word .doWord

@[simp] theorem hasDo_nil : ¬HasDo [] := by simp [HasDo]

@[simp] theorem hasDo_cons : HasDo (t :: ts) ↔ t.terminal = .word .doWord ∨ HasDo ts := by
  simp [HasDo]

@[simp] theorem hasDo_append : HasDo (ts ++ us) ↔ HasDo ts ∨ HasDo us := by
  simp [HasDo, or_and_right, exists_or]

theorem Separators.not_hasDo (h : Separators ts) : ¬HasDo ts := by
  rintro ⟨t, ht, hdo⟩
  rw [h t ht] at hdo
  cases hdo

def HaveBlock (trees : List Tree) : Prop := ∃ u ∈ callsAll trees, u.isBlock

theorem haveBlock_cons : HaveBlock (tree :: trees) ↔ HaveBlock [tree] ∨ HaveBlock trees := by
  simp [HaveBlock, callsAll, or_and_right, exists_or]

theorem haveBlock_append {trees' : List Tree} :
    HaveBlock (trees ++ trees') ↔ HaveBlock trees ∨ HaveBlock trees' := by
  simp [HaveBlock, callsAll_append, or_and_right, exists_or]

theorem haveBlock_list : HaveBlock [.list trees] ↔ HaveBlock trees := by
  simp [HaveBlock, callsAll, calls]

theorem HaveBlock.call {target : Tree} {note : Annotation}
    (h : HaveBlock [target] ∨ HaveBlock trees) : HaveBlock [.call target note trees] := by
  simp only [HaveBlock, callsAll, calls, List.append_nil, List.mem_cons, List.mem_append] at h ⊢
  obtain ⟨u, hu, hb⟩ | ⟨u, hu, hb⟩ := h
  · exact ⟨u, .inr (.inl hu), hb⟩
  · exact ⟨u, .inr (.inr hu), hb⟩

theorem HaveBlock.of_isBlock (h : tree.isBlock) : HaveBlock [tree] := by
  refine ⟨tree, ?_, h⟩
  cases tree with
  | call target note args => simp [callsAll, calls]
  | _ => cases h

theorem haveBlock_iff : HaveBlock trees ↔ ∃ tree ∈ trees, HaveBlock [tree] := by
  simp only [HaveBlock, callsAll, List.append_nil]
  constructor
  · rintro ⟨u, hu, hb⟩
    obtain ⟨tree, ht, hu⟩ := mem_callsAll.1 hu
    exact ⟨tree, ht, u, hu, hb⟩
  · rintro ⟨tree, ht, u, hu, hb⟩
    exact ⟨u, mem_callsAll.2 ⟨tree, ht, hu⟩, hb⟩

theorem HaveBlock.gatherKeywords (h : HaveBlock trees) (hl : trees.length = ps.length) :
    HaveBlock (Phrase.gatherKeywords ps trees) := by
  obtain ⟨tree, ht, h⟩ := haveBlock_iff.1 h
  rw [← List.map_snd_zip hl.le] at ht
  obtain ⟨e, he, rfl⟩ := List.mem_map.1 ht
  unfold Phrase.gatherKeywords
  dsimp only
  cases hk : e.1.isKeyword with
  | false =>
    have hmem : e.2 ∈ ((ps.zip trees).filter fun e => !e.1.isKeyword).map (·.2) :=
      List.mem_map.2 ⟨e, List.mem_filter.2 ⟨he, by simp [hk]⟩, rfl⟩
    have hpositional := haveBlock_iff.2 ⟨_, hmem, h⟩
    split
    · exact hpositional
    · exact haveBlock_append.2 (.inl hpositional)
  | true =>
    have hmem : e.2 ∈ ((ps.zip trees).filter fun e => e.1.isKeyword).map (·.2) :=
      List.mem_map.2 ⟨e, List.mem_filter.2 ⟨he, hk⟩, rfl⟩
    have hkeywords := haveBlock_iff.2 ⟨_, hmem, h⟩
    split
    · next hempty =>
      rw [List.isEmpty_iff.1 hempty] at hmem
      cases hmem
    · exact haveBlock_append.2 (.inr (haveBlock_list.2 hkeywords))

theorem Token.Spelled.spelled?_eq_none (h : t.Spelled) (ht : t.terminal = .name) :
    spelled? t.text = none := by
  obtain ⟨c, hc, hstart⟩ := h.name ht
  have huntaken := h.untaken ht
  rw [spelled?, List.find?_eq_none]
  intro x hx
  obtain hx | hx := List.mem_append.1 hx
  · obtain ⟨w, hw, rfl⟩ := List.mem_map.1 hx
    simpa [Terminal.text?] using List.find?_eq_none.1 huntaken w hw
  · obtain ⟨s, -, rfl⟩ := List.mem_map.1 hx
    simp only [Terminal.text?, Option.some.injEq, decide_eq_true_eq]
    intro htext
    rw [← htext, Sign.text, String.toList_ofList] at hc
    have : s.chars.head?.any isNameStart = false := by cases s <;> decide
    rw [Option.mem_def.1 hc, Option.any_some, hstart] at this
    cases this

theorem Token.Spelled.ne_braces (h : t.Spelled) (ht : t.terminal = .name) :
    t.text ≠ "\x7b\x7d" := by
  intro htext
  obtain ⟨c, hc, hstart⟩ := h.name ht
  rw [htext] at hc
  cases hc
  cases hstart

theorem toTrees_singleton_eq_ok [CharacterNames] :
    Phrase.toTrees [p] = .ok trees ↔ ∃ tree, p.toTree = .ok tree ∧ trees = [tree] := by
  rw [Phrase.toTrees_cons_eq_ok]
  constructor
  · rintro ⟨tree, ht, _, ⟨⟩, rfl⟩
    exact ⟨tree, ht, rfl⟩
  · rintro ⟨tree, ht, rfl⟩
    exact ⟨tree, ht, [], rfl, rfl⟩

/-- Tokens as the lexer gives them. -/
def Plain (ts : List Token) : Prop := ∀ t ∈ ts, t.Spelled

theorem Plain.left (h : Plain (ts ++ us)) : Plain ts := fun t ht => h t (List.mem_append_left _ ht)

theorem Plain.right (h : Plain (ts ++ us)) : Plain us :=
  fun t ht => h t (List.mem_append_right _ ht)

theorem Plain.tail (h : Plain (t :: ts)) : Plain ts := fun t ht => h t (List.mem_cons_of_mem _ ht)

theorem isEntry_of_parts [CharacterNames] (h : Derives .parts ts ps)
    (ht : Phrase.toTrees ps = .ok trees) :
    ∀ tree ∈ trees, Printer.isEntry tree := by
  generalize hc : Category.parts = c at h
  induction h generalizing trees with
  | noParts =>
    cases ht
    nofun
  | moreParts _ _ _ _ _ ih =>
    obtain ⟨a, ha, as, has, rfl⟩ := Phrase.toTrees_cons_eq_ok.1 ht
    obtain ⟨b, -, rfl⟩ := Phrase.toTree_part_eq_ok.1 ha
    exact List.forall_mem_cons.2 ⟨rfl, ih has hc⟩
  | _ => cases hc

theorem isSections_of_parts [CharacterNames] {opening : Token} {body : Phrase}
    (h : Derives .parts ts ps)
    (htext : opening.text = "do") (ht : Phrase.toTrees (.part opening body :: ps) = .ok trees) :
    Printer.isSections (.list trees) := by
  obtain ⟨a, ha, as, has, rfl⟩ := Phrase.toTrees_cons_eq_ok.1 ht
  obtain ⟨b, -, rfl⟩ := Phrase.toTree_part_eq_ok.1 ha
  rw [htext, Printer.isSections, Printer.isKeywords, Bool.and_eq_true, List.all_eq_true]
  exact ⟨rfl, List.forall_mem_cons.2 ⟨rfl, isEntry_of_parts h has⟩⟩

theorem haveBlock_statements [CharacterNames] (hs : (Phrase.statements ps).toTree = .ok tree)
    (h : ∀ trees, Phrase.toTrees ps = .ok trees → HaveBlock trees) : HaveBlock [tree] := by
  simp only [Phrase.toTree, bind_eq_ok] at hs
  obtain ⟨as, has, hs⟩ := hs
  have := h as has
  split at hs <;> cases hs
  · obtain ⟨u, hu, -⟩ := this
    cases hu
  · exact this
  · exact .call (.inr this)

theorem Derives.haveBlock [CharacterNames] (h : Derives c ts ps) (hn : Plain ts) (hdo : HasDo ts)
    (ht : Phrase.toTrees ps = .ok trees) : HaveBlock trees := by
  -- The `do` is a token of the rule itself, which then is that of a block, or is in a part.
  induction h generalizing trees with
  | tighter _ _ ih | operand _ ih | primary _ ih | expression _ ih | lastEntry _ ih
  | someArguments _ ih | lastPattern _ ih | lastClause _ ih | statements _ ih =>
    exact ih hn hdo ht
  | @binary k left p op right q _ hop _ ihl ihr =>
    obtain ⟨tree, htree, rfl⟩ := toTrees_singleton_eq_ok.1 ht
    obtain ⟨a, ha, b, hb, rfl⟩ := Phrase.toTree_binary_eq_ok.1 htree
    refine .call (.inr (haveBlock_cons.2 ?_))
    rw [hasDo_append, hasDo_cons] at hdo
    obtain hdo | hdo | hdo := hdo
    · exact .inl (ihl hn.left hdo (toTrees_singleton ha))
    · rw [hdo] at hop
      cases hop
    · exact .inr (ihr hn.right.tail hdo (toTrees_singleton hb))
  | @unary op ts p hop _ ih =>
    obtain ⟨tree, htree, rfl⟩ := toTrees_singleton_eq_ok.1 ht
    obtain ⟨a, ha, rfl⟩ := Phrase.toTree_unary_eq_ok.1 htree
    obtain hdo | hdo := hasDo_cons.1 hdo
    · rw [hdo] at hop
      cases hop
    · exact .call (.inr (ih hn.tail hdo (toTrees_singleton ha)))
  | @remoteCall ts p dot name opening inner args closing _ hd hm ho _ hc ih ihargs =>
    obtain ⟨tree, htree, rfl⟩ := toTrees_singleton_eq_ok.1 ht
    obtain ⟨a, ha, as, has, rfl⟩ := Phrase.toTree_remoteCall_eq_ok.1 htree
    simp only [hasDo_append, hasDo_cons, hasDo_nil, hd, hm, ho, hc, reduceCtorEq, false_or,
      or_false] at hdo
    rw [List.append_assoc] at hn
    obtain hdo | hdo := hdo
    · have := ih hn.left hdo (toTrees_singleton ha)
      exact .call (.inl (.call (.inr (haveBlock_cons.2 (.inl this)))))
    · have := ihargs hn.right.tail.tail.tail.left hdo has
      exact .call (.inr (this.gatherKeywords (Phrase.length_toTrees has)))
  | @field ts p dot name _ hd hm ih =>
    obtain ⟨tree, htree, rfl⟩ := toTrees_singleton_eq_ok.1 ht
    obtain ⟨a, ha, rfl⟩ := Phrase.toTree_field_eq_ok.1 htree
    simp only [hasDo_append, hasDo_cons, hasDo_nil, hd, hm, reduceCtorEq, or_false] at hdo
    have := ih hn.left hdo (toTrees_singleton ha)
    exact .call (.inl (.call (.inr (haveBlock_cons.2 (.inl this)))))
  | @access ts p opening inner q closing _ ho _ hc ih ihkey =>
    obtain ⟨tree, htree, rfl⟩ := toTrees_singleton_eq_ok.1 ht
    obtain ⟨a, ha, b, hb, rfl⟩ := Phrase.toTree_access_eq_ok.1 htree
    simp only [hasDo_append, hasDo_cons, hasDo_nil, ho, hc, reduceCtorEq, false_or, or_false]
      at hdo
    rw [List.append_assoc] at hn
    refine .call (.inr (haveBlock_cons.2 ?_))
    obtain hdo | hdo := hdo
    · exact .inl (ih hn.left hdo (toTrees_singleton ha))
    · exact .inr (ihkey hn.right.tail.left hdo (toTrees_singleton hb))
  | literal hx =>
    obtain hdo | hdo := hasDo_cons.1 hdo
    · rw [hdo] at hx
      cases hx
    · exact absurd hdo hasDo_nil
  | name hx | modulePath hx => simp [hx] at hdo
  | assign hs hm => simp [hs, hm] at hdo
  | @call name opening inner args closing hm ho _ hc ih =>
    obtain ⟨tree, htree, rfl⟩ := toTrees_singleton_eq_ok.1 ht
    obtain ⟨as, has, rfl⟩ := Phrase.toTree_call_eq_ok.1 htree
    simp only [hasDo_append, hasDo_cons, hasDo_nil, hm, ho, hc, reduceCtorEq, false_or, or_false]
      at hdo
    exact .call (.inr ((ih hn.tail.tail.left hdo has).gatherKeywords (Phrase.length_toTrees has)))
  | @block name inner args opening ts body rest parts hm _ ho _ hparts =>
    obtain ⟨tree, htree, rfl⟩ := toTrees_singleton_eq_ok.1 ht
    obtain ⟨as, has, bs, hbs, rfl⟩ := Phrase.toTree_block_eq_ok.1 htree
    have hname := hn name (by simp)
    have hspelled := hname.spelled?_eq_none hm
    have hne := hname.ne_braces hm
    have hdo : opening.text = "do" := (hn opening (by simp)).text _ (by rw [ho]; rfl)
    have hsections := isSections_of_parts hparts hdo hbs
    exact .of_isBlock (by simp [Tree.named, isBlock, hspelled, hne, hsections])
  | @parens opening inner p closing ho _ hc ih =>
    simp only [hasDo_append, hasDo_cons, hasDo_nil, ho, hc, reduceCtorEq, false_or, or_false] at hdo
    obtain ⟨tree, htree, rfl⟩ := toTrees_singleton_eq_ok.1 ht
    exact ih hn.tail.left hdo (toTrees_singleton htree)
  | @list opening inner items closing ho _ hc ih =>
    obtain ⟨tree, htree, rfl⟩ := toTrees_singleton_eq_ok.1 ht
    obtain ⟨as, has, rfl⟩ := Phrase.toTree_list_eq_ok.1 htree
    simp only [hasDo_append, hasDo_cons, hasDo_nil, ho, hc, reduceCtorEq, false_or, or_false] at hdo
    exact haveBlock_list.2 (ih hn.tail.left hdo has)
  | @tuple opening inner items closing ho _ hc ih =>
    obtain ⟨tree, htree, rfl⟩ := toTrees_singleton_eq_ok.1 ht
    simp only [Phrase.toTree, bind_eq_ok] at htree
    obtain ⟨as, has, htree⟩ := htree
    simp only [hasDo_append, hasDo_cons, hasDo_nil, ho, hc, reduceCtorEq, false_or, or_false] at hdo
    have := ih hn.tail.left hdo has
    split at htree <;> cases htree
    · simpa [HaveBlock, callsAll, calls] using this
    · exact .call (.inr this)
  | @keyword key ts p hk _ ih =>
    obtain ⟨tree, htree, rfl⟩ := toTrees_singleton_eq_ok.1 ht
    obtain ⟨a, ha, rfl⟩ := Phrase.toTree_keyword_eq_ok.1 htree
    simp only [hasDo_cons, hk, reduceCtorEq, false_or] at hdo
    simpa [HaveBlock, callsAll, calls] using ih hn.tail hdo (toTrees_singleton ha)
  | @moreEntries ts p comma rest ps _ hc _ ih ihrest
  | @morePatterns ts p comma rest ps _ hc _ ih ihrest =>
    obtain ⟨a, ha, as, has, rfl⟩ := Phrase.toTrees_cons_eq_ok.1 ht
    simp only [hasDo_append, hasDo_cons, hc, reduceCtorEq, false_or] at hdo
    refine haveBlock_cons.2 (hdo.imp (fun hdo => ?_) fun hdo => ?_)
    · exact ih hn.left hdo (toTrees_singleton ha)
    · exact ihrest hn.right.tail hdo has
  | noArguments => exact absurd hdo hasDo_nil
  | @lastStatement ts ps gap _ hgap ih =>
    exact ih hn.left ((hasDo_append.1 hdo).resolve_right hgap.not_hasDo) ht
  | @moreStatements ts p gap rest ps _ hgap _ _ ih ihrest =>
    obtain ⟨a, ha, as, has, rfl⟩ := Phrase.toTrees_cons_eq_ok.1 ht
    rw [hasDo_append, hasDo_append] at hdo
    refine haveBlock_cons.2 (hdo.imp (fun hdo => ?_) fun hdo => ?_)
    · exact ih hn.left.left (hdo.resolve_right hgap.not_hasDo) (toTrees_singleton ha)
    · exact ihrest hn.right hdo has
  | @clause ts ps arrow rest body _ harrow _ ih ihbody =>
    obtain ⟨tree, htree, rfl⟩ := toTrees_singleton_eq_ok.1 ht
    obtain ⟨as, has, b, hb, rfl⟩ := Phrase.toTree_clause_eq_ok.1 htree
    simp only [hasDo_append, hasDo_cons, harrow, reduceCtorEq, false_or] at hdo
    refine .call (.inr (haveBlock_cons.2 (hdo.imp (fun hdo => ?_) fun hdo => ?_)))
    · exact haveBlock_list.2 (ih hn.left hdo has)
    · exact ihbody hn.right.tail hdo (toTrees_singleton hb)
  | @moreClauses ts p rest ps _ _ ih ihrest =>
    obtain ⟨a, ha, as, has, rfl⟩ := Phrase.toTrees_cons_eq_ok.1 ht
    refine haveBlock_cons.2 ((hasDo_append.1 hdo).imp (fun hdo => ?_) fun hdo => ?_)
    · exact ih hn.left hdo (toTrees_singleton ha)
    · exact ihrest hn.right hdo has
  | noStatements hgap => exact absurd hdo hgap.not_hasDo
  | @someStatements gap ts ps hgap _ ih =>
    obtain ⟨tree, htree, rfl⟩ := toTrees_singleton_eq_ok.1 ht
    have hdo := (hasDo_append.1 hdo).resolve_left hgap.not_hasDo
    exact haveBlock_statements htree fun trees => ih hn.right hdo
  | @clauses gap ts ps hgap _ ih =>
    obtain ⟨tree, htree, rfl⟩ := toTrees_singleton_eq_ok.1 ht
    obtain ⟨as, has, rfl⟩ := Phrase.toTree_clauses_eq_ok.1 htree
    have hdo := (hasDo_append.1 hdo).resolve_left hgap.not_hasDo
    exact haveBlock_list.2 (ih hn.right hdo has)
  | @noParts closing hc => simp [hc] at hdo
  | @moreParts label w ts body rest ps hl hw _ _ ih ihrest =>
    obtain ⟨a, ha, as, has, rfl⟩ := Phrase.toTrees_cons_eq_ok.1 ht
    obtain ⟨b, hb, rfl⟩ := Phrase.toTree_part_eq_ok.1 ha
    have hne : w ≠ .doWord := by
      rintro rfl
      cases hw
    simp only [List.cons_append, hasDo_cons, hasDo_append, hl, Terminal.word.injEq, hne, false_or]
      at hdo
    refine haveBlock_cons.2 (hdo.imp (fun hdo => ?_) fun hdo => ?_)
    · simpa [HaveBlock, callsAll, calls] using ih hn.tail.left hdo (toTrees_singleton hb)
    · exact ihrest hn.tail.right hdo has

theorem isEntry_unlined (t : Tree) : Printer.isEntry t.unlined = Printer.isEntry t := by
  cases t with
  | pair left right => cases left <;> rfl
  | _ => rfl

theorem isSections_of_ne {name : String} {body : Tree} {items : List Tree} (h : name ≠ "do") :
    Printer.isSections (.list (.pair (.atom name) body :: items)) = false := by
  unfold Printer.isSections
  split
  · next heq =>
    cases heq
    exact absurd rfl h
  · rfl

theorem isSections_unlined (t : Tree) : Printer.isSections t.unlined = Printer.isSections t := by
  cases t with
  | list items =>
    cases items with
    | nil => rfl
    | cons item items =>
      cases item with
      | pair left right =>
        cases left with
        | atom name =>
          by_cases hname : name = "do"
          · subst hname
            simp only [unlined, unlinedAll, unlinedAll_eq_map, Printer.isSections,
              Printer.isKeywords, List.all_cons, List.all_map, Function.comp_def,
              isEntry_unlined, List.isEmpty_cons]
            rfl
          · simp only [unlined, unlinedAll, isSections_of_ne hname]
        | _ => rfl
      | _ => rfl
  | _ => rfl

theorem isBlock_unlined (t : Tree) : t.unlined.isBlock = t.isBlock := by
  cases t with
  | call target note args =>
    cases target with
    | str name =>
      simp only [unlined, isBlock, unlinedAll_eq_map, List.getLast?_map, Option.any_map,
        isSections_unlined]
    | _ => rfl
  | _ => rfl

mutual

theorem calls_unlined (t : Tree) : t.unlined.calls = t.calls.map unlined := by
  cases t with
  | ref target note => simp [unlined, calls, calls_unlined target]
  | call target note args =>
    simp [unlined, calls, calls_unlined target, callsAll_unlined args]
  | pair left right => simp [unlined, calls, calls_unlined left, calls_unlined right]
  | list items => simpa [unlined, calls] using callsAll_unlined items
  | «sealed» items => simpa [unlined, calls] using callsAll_unlined items
  | _ => rfl

theorem callsAll_unlined (ts : List Tree) :
    callsAll (unlinedAll ts) = (callsAll ts).map unlined := by
  cases ts with
  | nil => rfl
  | cons t ts => simp [unlinedAll, callsAll, calls_unlined t, callsAll_unlined ts]

end

theorem not_haveBlock_of_unlined {t u : Tree} (h : Blockless t) (hu : u.unlined = t.unlined) :
    ¬HaveBlock [u] := by
  rintro ⟨v, hv, hb⟩
  have hmem : v.unlined ∈ t.calls.map unlined := by
    rw [← calls_unlined, ← hu, calls_unlined]
    exact List.mem_map_of_mem (by simpa [callsAll] using hv)
  obtain ⟨w, hw, heq⟩ := List.mem_map.1 hmem
  have := h w hw
  rw [← isBlock_unlined, heq, isBlock_unlined, hb] at this
  cases this

end Code

end EmbeddedTemplate
