import EmbeddedTemplate.Proofs.Template.Outline
import EmbeddedTemplate.Proofs.Template.Run
import Mathlib.Data.List.Forall2

/-!
What an outline means to an engine, and that the compiler computes it. The compiler goes over the
tokens once, with a stack of open blocks; the meaning of an outline is a recursion on its structure,
so that nothing outside a block has an influence on what the block means.
-/

namespace EmbeddedTemplate.Template

section

variable [CharacterNames] (engine : Engine) (file : String) (init : Tree)

mutual

def Item.meaning (buffer : Tree) : Item → Except Fault Tree
  | .text _ content => engine.text buffer content
  | .plain tag => do engine.add file tag buffer (← parseCode file tag.code tag.line)
  | .block opening fold sections => do
    let values ← sectionsMeaning sections
    let spine : Spine := ⟨opening, fold, sections.map Section.tag⟩
    let tree ← parseCode file spine.source opening.line
    engine.add file opening buffer (← substitute values tree)

def itemsMeaning (buffer : Tree) : List Item → Except Fault Tree
  | [] => return buffer
  | item :: items => do itemsMeaning (← item.meaning buffer) items

def Section.meaning : Section → Except Fault Tree
  | .mk items _ => itemsMeaning init items

def sectionsMeaning : List Section → Except Fault (List Tree)
  | [] => return []
  | s :: sections => do
    let value ← s.meaning
    return value :: (← sectionsMeaning sections)

end

end

def outlineMeaning [CharacterNames] (engine : Engine) (options : Options) (items : List Item) :
    Except Fault Tree := do
  let init := engine.init options
  engine.body (← itemsMeaning engine options.file init init items)

section

variable [CharacterNames] {engine : Engine} {file : String} {init buffer buffer' value : Tree}
variable {values : List Tree}
variable {items : List Item} {item : Item} {sections : List Section}

theorem itemsMeaning_append :
    itemsMeaning engine file init buffer (items ++ [item]) =
      itemsMeaning engine file init buffer items >>= fun buffer =>
        item.meaning engine file init buffer := by
  induction items generalizing buffer with
  | nil =>
    simp only [List.nil_append, itemsMeaning, pure_eq_ok, ok_bind]
    cases item.meaning engine file init buffer <;> rfl
  | cons i items ih =>
    simp only [List.cons_append, itemsMeaning]
    cases i.meaning engine file init buffer with
    | error e => rfl
    | ok b => exact ih

theorem itemsMeaning_snoc (h : itemsMeaning engine file init init items = .ok buffer)
    (hi : item.meaning engine file init buffer = .ok buffer') :
    itemsMeaning engine file init init (items ++ [item]) = .ok buffer' := by
  rw [itemsMeaning_append, h, ok_bind, hi]

theorem sectionsMeaning_snoc {tag : Tag}
    (h : sectionsMeaning engine file init sections = .ok values)
    (hi : itemsMeaning engine file init init items = .ok value) :
    sectionsMeaning engine file init (sections ++ [.mk items tag]) = .ok (values ++ [value]) := by
  induction sections generalizing values with
  | nil =>
    cases h
    simp [sectionsMeaning, Section.meaning, hi, pure_eq_ok]
  | cons s sections ih =>
    simp only [sectionsMeaning, bind_eq_ok] at h
    obtain ⟨v, hv, vs, hvs, h⟩ := h
    cases h
    simp only [List.cons_append, sectionsMeaning, hv, ok_bind, ih hvs, pure_eq_ok]

theorem length_of_sectionsMeaning (h : sectionsMeaning engine file init sections = .ok values) :
    values.length = sections.length := by
  induction sections generalizing values with
  | nil =>
    cases h
    rfl
  | cons s sections ih =>
    simp only [sectionsMeaning, bind_eq_ok] at h
    obtain ⟨v, hv, vs, hvs, h⟩ := h
    cases h
    simp [ih hvs]

end

theorem lookAhead_cases (source : String) (line : Int) (later : List Token) :
    (¬ StartsWithFold later ∧ lookAhead source line later = ⟨source, line, 0⟩) ∨
    ∃ (fold : Fold) (rest : List Token), fold.Proper ∧ later = fold.tokens ++ rest ∧
      lookAhead source line later =
        ⟨source ++ fold.code, fold.tag.line, fold.tokens.length⟩ := by
  match later with
  | [] =>
    refine .inl ⟨?_, rfl⟩
    rintro ⟨⟨_ | _, _⟩, _, _, h⟩ <;> cases h
  | .tag t :: rest =>
    by_cases ht : t.continues
    · exact .inr ⟨⟨none, t⟩, rest, ⟨ht, by simp⟩, rfl,
        by simp [lookAhead, ht, Fold.code, Fold.tokens]⟩
    · exact .inl ⟨fun h => ht (startsWithFold_tag h), by simp [lookAhead, ht]⟩
  | [.text l blank] =>
    refine .inl ⟨fun h => ?_, rfl⟩
    obtain ⟨_, _, _, _, h⟩ := startsWithFold_text h
    cases h
  | .text l blank :: .text l' content :: rest =>
    refine .inl ⟨fun h => ?_, rfl⟩
    obtain ⟨_, _, _, _, h⟩ := startsWithFold_text h
    cases h
  | .text l blank :: .tag t :: rest =>
    by_cases ht : t.continues ∧ blank.toList.all Text.isGap
    · refine .inr ⟨⟨some (l, blank), t⟩, rest, ⟨ht.1, ?_⟩, rfl, ?_⟩
      · rintro _ ⟨⟩
        exact ht.2
      · simp [lookAhead, ht.1, ht.2, Fold.code, Fold.tokens, String.append_assoc]
    · refine .inl ⟨fun h => ht ?_, ?_⟩
      · obtain ⟨hb, _, _, hc, h⟩ := startsWithFold_text h
        cases h
        exact ⟨hc, hb⟩
      · simp only [lookAhead, ← Bool.and_eq_true] at ht ⊢
        rw [if_neg ht]

section

variable [CharacterNames] (engine : Engine) (file : String) (init : Tree)

structure OpenBlock.Follows (block : OpenBlock) (frame : Frame) : Prop where
  opening : block.opening = frame.opening
  source : block.source = frame.spine.source
  line : block.line = Spine.lastLine frame.spine.headLine frame.spine.later
  sections : sectionsMeaning engine file init frame.sections = .ok block.sections
  outer : itemsMeaning engine file init init frame.before = .ok block.outer
  unreserved : frame.opening.Unreserved ∧ ∀ s ∈ frame.sections, s.tag.Unreserved

/--
In front of the tokens `later` the compiler has read the tokens `read`, of which those it has taken
ahead are still to come; what it holds is what the cursor behind `read` means.
-/
structure State.Follows (tokens later : List Token) (s : State) (read : List Token) (c : Cursor) :
    Prop where
  split : read ++ later.drop s.taken = tokens
  taken : s.taken ≤ later.length
  position : s.position = read.length
  after : Cursor.after {} read = some c
  buffer : itemsMeaning engine file init init c.items = .ok s.buffer
  blocks : List.Forall₂ (OpenBlock.Follows engine file init) s.blocks c.frames
  /-- A fold is taken as soon as its block is opened, so none comes later. -/
  noFold : ∀ frame ∈ c.frames.head?, frame.fold = none → frame.sections = [] →
    (foldBlank? c.items).isSome → ¬ StartsWithFold (itemsTokens c.items ++ later.drop s.taken)

variable {engine file init} {tokens later read : List Token} {token : Token} {s s' : State}
variable {c : Cursor} {block : OpenBlock} {frame : Frame} {items : List Item} {buffer : Tree}
variable {tag : Tag}

theorem OpenBlock.Follows.extend (h : block.Follows engine file init frame)
    (hb : itemsMeaning engine file init init items = .ok buffer) (hr : tag.Unreserved) :
    (block.extend buffer tag).Follows engine file init (frame.extend items tag) where
  opening := h.opening
  source := by
    have hl : frame.spine.later.length = block.sections.length := by
      rw [length_of_sectionsMeaning h.sections, Frame.spine, List.length_map]
    simp only [OpenBlock.extend, h.source, h.line, Frame.extend, Frame.spine, Spine.source,
      List.map_append, List.map_cons, List.map_nil, Section.tag, Spine.tail_append, Nat.zero_add]
    simp only [Frame.spine] at hl
    rw [hl]
    simp only [String.append_assoc]
    rfl
  line := by
    simp only [OpenBlock.extend, Frame.extend, Frame.spine, List.map_append, List.map_cons,
      List.map_nil, Section.tag, Spine.lastLine_append]
  sections := sectionsMeaning_snoc h.sections hb
  outer := h.outer
  unreserved := by
    refine ⟨h.unreserved.1, fun s hs => ?_⟩
    obtain hs | hs := List.mem_append.1 hs
    · exact h.unreserved.2 s hs
    · cases List.mem_singleton.1 hs
      exact hr

theorem add_follows (item : Item)
    (h : s.Follows engine file init tokens (token :: later) read c) (ht : s.taken = 0)
    (hn : c.next token = some (c.add item)) (hi : item.tokens = [token])
    (hm : item.meaning engine file init s.buffer = .ok buffer) :
    State.Follows engine file init tokens later ⟨0, s.position + 1, buffer, s.blocks⟩
      (read ++ [token]) (c.add item) where
  split := by simpa [ht] using h.split
  taken := by simp
  position := by simp [h.position]
  after := Cursor.after_concat h.after hn
  buffer := itemsMeaning_snoc h.buffer hm
  blocks := h.blocks
  noFold frame hf h₁ h₂ hb := by
    have hc : c.items = [] := Cursor.eq_nil_of_foldBlank? hb
    have := h.noFold frame hf h₁ h₂ (by rw [hc]; rfl)
    simpa [Cursor.add, hc, itemsTokens, hi, ht] using this

theorem opening_follows (h : s.Follows engine file init tokens (.tag tag :: later) read c)
    (ht : s.taken = 0) (hk : tag.kind = .opening) (hr : tag.Unreserved) {ahead : Lookahead}
    (ha : lookAhead tag.code tag.line later = ahead) :
    ∃ read' c', State.Follows engine file init tokens later
      ⟨ahead.taken, s.position + 1 + ahead.taken, init,
        ⟨tag, s.buffer, ahead.source, ahead.line, []⟩ :: s.blocks⟩ read' c' := by
  have hsplit : read ++ .tag tag :: later = tokens := by simpa [ht] using h.split
  have hnext : c.next (.tag tag) = some ⟨⟨c.items, tag, none, []⟩ :: c.frames, []⟩ := by
    simp only [Cursor.next, hk]
  have hafter : Cursor.after {} (read ++ [.tag tag]) =
      some ⟨⟨c.items, tag, none, []⟩ :: c.frames, []⟩ := Cursor.after_concat h.after hnext
  -- A fold is read by the cursor at once, though its tokens are still to come.
  obtain ⟨hno, hl⟩ | ⟨fold, rest, hp, rfl, hl⟩ := lookAhead_cases tag.code tag.line later
  · obtain rfl := hl.symm.trans ha
    refine ⟨_, _, ?_, Nat.zero_le _, ?_, hafter, rfl,
      .cons ⟨rfl, ?_, rfl, rfl, h.buffer, hr, by simp⟩ h.blocks, fun _ _ _ _ _ => hno⟩
    · simpa using hsplit
    · simp [h.position]
    · simp [Frame.spine, Spine.source, Spine.head, Spine.tail]
  · obtain rfl := hl.symm.trans ha
    refine ⟨read ++ [.tag tag] ++ fold.tokens, ⟨⟨c.items, tag, some fold, []⟩ :: c.frames, []⟩,
      ?_, ?_, ?_, ?_, rfl, .cons ⟨rfl, ?_, rfl, rfl, h.buffer, hr, by simp⟩ h.blocks, ?_⟩
    · simpa using hsplit
    · simp
    · simp [h.position, Nat.add_assoc, Nat.add_comm]
    · rw [Cursor.after_append, hafter]
      exact Cursor.after_fold hp _ _
    · simp [Frame.spine, Spine.source, Spine.head, Spine.tail]
    · rintro _ ⟨⟩ ⟨⟩

theorem middle_follows {block : OpenBlock} {blocks : List OpenBlock}
    (h : s.Follows engine file init tokens (.tag tag :: later) read c)
    (ht : s.taken = 0) (hb : s.blocks = block :: blocks) (hk : tag.kind = .middle)
    (hr : tag.Unreserved) (hm : tag.marker.isEmpty) :
    ∃ read' c', State.Follows engine file init tokens later
      ⟨0, s.position + 1, init, block.extend s.buffer tag :: blocks⟩ read' c' := by
  have hsplit : read ++ .tag tag :: later = tokens := by simpa [ht] using h.split
  have hblocks := h.blocks
  obtain ⟨frames, items⟩ := c
  rw [hb] at hblocks
  cases hblocks with
  | @cons _ frame _ frames hf hfs =>
    have hmid : Cursor.middle frame frames items tag = ⟨frame.extend items tag :: frames, []⟩ := by
      unfold Cursor.middle
      split
      · next h₁ h₂ hblank =>
        refine absurd ⟨⟨_, tag⟩, later, ⟨?_, (Cursor.foldBlank?_eq_some hblank).2⟩, ?_⟩
          (h.noFold frame rfl h₁ h₂ (by rw [hblank]; rfl))
        · simp [Tag.continues, hk, hm]
        · simp [ht, Fold.tokens, (Cursor.foldBlank?_eq_some hblank).1]
      · rfl
    refine ⟨read ++ [.tag tag], ⟨frame.extend items tag :: frames, []⟩, ?_, Nat.zero_le _, ?_, ?_,
      rfl, .cons (hf.extend h.buffer hr) hfs, ?_⟩
    · simpa using hsplit
    · simp [h.position]
    · exact Cursor.after_concat h.after (by simp [Cursor.next, hk, hm, hmid])
    · rintro _ ⟨⟩ _ h₂
      simp [Frame.extend] at h₂

theorem closing_follows {block closed : OpenBlock} {blocks : List OpenBlock} {tree tree' : Tree}
    (h : s.Follows engine file init tokens (.tag tag :: later) read c)
    (ht : s.taken = 0) (hb : s.blocks = block :: blocks) (hk : tag.kind = .closing)
    (hr : tag.Unreserved) (hm : tag.marker.isEmpty) (hc : block.extend s.buffer tag = closed)
    (hp : parseCode file closed.source closed.opening.line = .ok tree)
    (hs : substitute closed.sections tree = .ok tree')
    (ha : engine.add file closed.opening closed.outer tree' = .ok buffer) :
    ∃ read' c', State.Follows engine file init tokens later
      ⟨0, s.position + 1, buffer, blocks⟩ read' c' := by
  have hsplit : read ++ .tag tag :: later = tokens := by simpa [ht] using h.split
  have hblocks := h.blocks
  obtain ⟨frames, items⟩ := c
  rw [hb] at hblocks
  cases hblocks with
  | @cons _ frame _ frames hf hfs =>
    have hclosed := hc ▸ hf.extend h.buffer hr
    refine ⟨read ++ [.tag tag], ⟨frames, frame.before ++ [(frame.extend items tag).block]⟩, ?_,
      Nat.zero_le _, ?_, ?_, itemsMeaning_snoc hclosed.outer ?_, hfs, ?_⟩
    · simpa using hsplit
    · simp [h.position]
    · exact Cursor.after_concat h.after (Cursor.after_closes ⟨hk, hm⟩)
    · rw [Frame.block, Item.meaning, hclosed.sections, ok_bind]
      change (parseCode file (frame.extend items tag).spine.source _ >>= _) = _
      rw [← hclosed.source, ← hclosed.opening, hp, ok_bind, hs, ok_bind, ha]
    · intro _ _ _ _ hblank
      rw [Cursor.foldBlank?_block] at hblank
      cases hblank

theorem step_follows (h : s.Follows engine file init tokens (token :: later) read c)
    (hs : Steps engine file init s token later s') :
    ∃ read' c', s'.Follows engine file init tokens later read' c' := by
  cases hs with
  | skip =>
    refine ⟨read, c, h.split, ?_, h.position, h.after, h.buffer, h.blocks, h.noFold⟩
    simpa using h.taken
  | text ht => exact ⟨_, _, add_follows _ h rfl rfl rfl ht⟩
  | plain hk _ hp ha =>
    refine ⟨_, _, add_follows (.plain _) h rfl ?_ rfl ?_⟩
    · simp only [Cursor.next, hk]
    · rw [Item.meaning, hp, ok_bind, ha]
  | opening hk hr ha => exact opening_follows h rfl hk hr ha
  | middle hk hr hm => exact middle_follows h rfl rfl hk hr hm
  | closing hk hr hm hc hp hs ha => exact closing_follows h rfl rfl hk hr hm hc hp hs ha

theorem run_follows {now : List Token} (h : s.Follows engine file init tokens (now ++ later) read c)
    (hr : engine.run file init s now later = .ok s') :
    ∃ read' c', s'.Follows engine file init tokens later read' c' :=
  run_induction (P := fun s later => ∃ read c, s.Follows engine file init tokens later read c)
    (fun ⟨_, _, h⟩ hs => step_follows h hs) ⟨read, c, h⟩ hr

theorem start_follows : State.Follows engine file init tokens tokens { buffer := init } [] {} where
  split := rfl
  taken := Nat.zero_le _
  position := rfl
  after := rfl
  buffer := rfl
  blocks := .nil
  noFold := by rintro _ ⟨⟩

theorem State.Follows.after_all (h : s.Follows engine file init tokens [] read c) :
    s.position = tokens.length ∧ Cursor.after {} tokens = some c := by
  have hr : read = tokens := by simpa using h.split
  exact ⟨hr ▸ h.position, hr ▸ h.after⟩

end

/--
Whatever the compiler makes of tokens is what their outline means. The outline is a function of the
tokens, and its meaning is a recursion on its structure in which a block does not depend on what
stands around it.
-/
theorem compileTokens_eq_outlineMeaning [CharacterNames] (engine : Engine) (options : Options)
    (tokens : List Token)
    (artifact : Tree) (h : compileTokens engine options tokens = .ok artifact) :
    ∃ items, outline? tokens = some items ∧
      outlineMeaning engine options items = .ok artifact := by
  obtain ⟨position, h⟩ := compileTokens_eq_ok.1 h
  rw [generate_eq_run, bind_eq_ok] at h
  obtain ⟨s, hr, hf⟩ := h
  obtain ⟨hb, ha, _⟩ := finish_eq_ok.1 hf
  obtain ⟨read, ⟨frames, items⟩, h⟩ := run_follows (by simpa using start_follows) hr
  have hblocks := h.blocks
  rw [hb] at hblocks
  cases hblocks
  refine ⟨items, ?_, ?_⟩
  · rw [outline?, h.after_all.2]
  · rw [outlineMeaning, h.buffer, ok_bind, ha]

theorem compileTokens_nested :
    let tokens : List Token :=
      [.tag ⟨.opening, 1, "=", " case x do "⟩, .text 1 "\n", .tag ⟨.middle, 2, "", " 1 -> "⟩,
        .text 2 "A", .tag ⟨.opening, 2, "", " if y do "⟩, .text 2 "B",
        .tag ⟨.closing, 3, "", " end "⟩, .tag ⟨.closing, 4, "", " end "⟩]
    let inner : Tree := .named "if" [.var "y" ⟨some 2, none⟩,
      .list [.pair (.atom "do") (Engine.concatenation (.str "") (.str "B"))]] ⟨some 2, none⟩
    let clause : Tree := .named "->" [.list [.int 1],
      Engine.evaluation (Engine.concatenation (.str "") (.str "A")) inner] ⟨some 2, none⟩
    let outer : Tree := .named "case" [.var "x" ⟨some 1, none⟩,
      .list [.pair (.atom "do") (.list [clause])]] ⟨some 1, none⟩
    let artifact := Engine.concatenation (.str "") (Engine.textOf outer)
    compileTokens Engine.smart {} tokens = .ok artifact ∧
      ∃ items, outline? tokens = some items ∧
        outlineMeaning Engine.smart {} items = .ok artifact := by
  intro tokens inner clause outer artifact
  have h : compileTokens Engine.smart {} tokens = .ok artifact := by decide +kernel
  exact ⟨h, compileTokens_eq_outlineMeaning Engine.smart {} tokens artifact h⟩

end EmbeddedTemplate.Template
