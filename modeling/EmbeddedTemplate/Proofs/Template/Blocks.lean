import EmbeddedTemplate.Proofs.Template.Meaning

namespace EmbeddedTemplate.Template

namespace Spine

def tags (spine : Spine) : List Tag :=
  spine.opening :: (spine.fold.map Fold.tag).toList ++ spine.later

structure Proper (spine : Spine) : Prop where
  opening : spine.opening.kind = .opening
  fold : ∀ f ∈ spine.fold, f.Proper
  later : Closed spine.later

end Spine

def tagsOf (tokens : List Token) : List Tag :=
  tokens.filterMap fun token =>
    match token with
    | .text _ _ => none
    | .tag tag => some tag

/--
The compiler has gone over the tokens in front of the tag that closes a block without a fault, and
hands the code of the whole block to the parser next.
-/
inductive Engine.Closes [CharacterNames] (engine : Engine) (options : Options) :
    List Token → Spine → OpenBlock → Prop
  | intro {before tag later s block blocks frame frames items} :
      engine.run options.file (engine.init options) { buffer := engine.init options } before
        (.tag tag :: later) = .ok s →
      s.taken = 0 → s.blocks = block :: blocks → tag.closes → tag.Unreserved →
      Cursor.after {} before = some ⟨frame :: frames, items⟩ →
      Closes engine options (before ++ .tag tag :: later) (frame.extend items tag).spine
        (block.extend s.buffer tag)

variable {engine : Engine} {options : Options} {tokens : List Token} {spine : Spine}
variable {closed : OpenBlock}

section

variable [CharacterNames] {before later : List Token} {tag : Tag} {s : State}

theorem Engine.exists_follows
    (hr : engine.run options.file (engine.init options) { buffer := engine.init options } before
      later = .ok s) (ht : s.taken = 0) :
    ∃ c, s.Follows engine options.file (engine.init options) (before ++ later) later before c := by
  obtain ⟨read, c, hF⟩ := run_follows start_follows hr
  obtain rfl : read = before := by simpa [ht] using hF.split
  exact ⟨c, hF⟩

theorem Engine.exists_closes (engine : Engine) (options : Options) (before : List Token) (tag : Tag)
    (later : List Token) (frame : Frame) (frames : List Frame) (items : List Item)
    (hr : (engine.run options.file (engine.init options) { buffer := engine.init options } before
      (.tag tag :: later)).toOption.any (·.taken = 0))
    (hc : tag.closes) (hu : tag.Unreserved)
    (ha : Cursor.after {} before = some ⟨frame :: frames, items⟩) :
    ∃ closed, engine.Closes options (before ++ .tag tag :: later) (frame.extend items tag).spine
      closed := by
  obtain ⟨s, hs, ht⟩ := (Option.any_eq_true ..).1 hr
  rw [toOption_eq_some] at hs
  simp only [decide_eq_true_eq] at ht
  obtain ⟨c, hF⟩ := Engine.exists_follows hs ht
  obtain rfl := Option.some.inj (ha.symm.trans hF.after)
  obtain ⟨block, blocks, -, -, hb⟩ := List.forall₂_cons_right_iff.1 hF.blocks
  exact ⟨_, .intro hs ht hb hc hu ha⟩

theorem Engine.closes_of_run {block : OpenBlock} {blocks : List OpenBlock}
    (hr : engine.run options.file (engine.init options) { buffer := engine.init options } before
      (.tag tag :: later) = .ok s) (ht : s.taken = 0) (hb : s.blocks = block :: blocks)
    (hc : tag.closes) (hu : tag.Unreserved) :
    ∃ spine, engine.Closes options (before ++ .tag tag :: later) spine
      (block.extend s.buffer tag) := by
  obtain ⟨⟨frames, items⟩, hF⟩ := Engine.exists_follows hr ht
  have hblocks := hF.blocks
  rw [hb] at hblocks
  obtain ⟨frame, frames, -, -, rfl⟩ := List.forall₂_cons_left_iff.1 hblocks
  exact ⟨_, .intro hr ht hb hc hu hF.after⟩

end

namespace Engine.Closes

variable [CharacterNames]

theorem exists_frame (h : engine.Closes options tokens spine closed) :
    ∃ frame : Frame, spine = frame.spine ∧
      closed.Follows engine options.file (engine.init options) frame := by
  obtain ⟨hr, ht, hb, hc, hu, ha⟩ := h
  obtain ⟨c, hF⟩ := Engine.exists_follows hr ht
  have hblocks := hF.blocks
  obtain rfl := Option.some.inj (ha.symm.trans hF.after)
  rw [hb] at hblocks
  cases hblocks with
  | cons hf _ => exact ⟨_, rfl, hf.extend hF.buffer hu⟩

theorem follows (h : engine.Closes options tokens spine closed) :
    closed.source = spine.source ∧ closed.opening = spine.opening ∧
      closed.sections.length = spine.later.length := by
  obtain ⟨frame, rfl, hf⟩ := h.exists_frame
  refine ⟨hf.source, hf.opening, ?_⟩
  rw [length_of_sectionsMeaning hf.sections, Frame.spine, List.length_map]

/-- Opening, closing and middle tags between sections were looked at, the tag of a fold was not. -/
theorem unreserved (h : engine.Closes options tokens spine closed) :
    spine.opening.Unreserved ∧ ∀ tag ∈ spine.later, tag.Unreserved := by
  obtain ⟨frame, rfl, hf⟩ := h.exists_frame
  exact ⟨hf.unreserved.1, List.forall_mem_map.2 hf.unreserved.2⟩

theorem proper (h : engine.Closes options tokens spine closed) : spine.Proper := by
  obtain ⟨hr, ht, hb, hc, hu, ha⟩ := h
  have hp := Cursor.proper_after Cursor.proper_start ha
  obtain ⟨ho, hf, -, -, hl⟩ :=
    Cursor.proper_block (hp.frames _ (List.mem_cons_self ..)) hp.items hc
  exact ⟨ho, hf, hl⟩

theorem step (h : engine.Closes options tokens spine closed) :
    ∃ before tag later s blocks, tokens = before ++ .tag tag :: later ∧
      engine.run options.file (engine.init options) { buffer := engine.init options } before
        (.tag tag :: later) = .ok s ∧
      engine.step options.file (engine.init options) s (.tag tag) later = (do
        let tree ← parseCode options.file spine.source spine.opening.line
        let tree ← substitute closed.sections tree
        let buffer ← engine.add options.file spine.opening closed.outer tree
        return ⟨0, s.position + 1, buffer, blocks⟩) := by
  obtain ⟨hs, ho, -⟩ := h.follows
  obtain @⟨before, tag, later, s, block, blocks, frame, frames, items, hr, ht, hb, hc, hu, ha⟩ := h
  refine ⟨before, tag, later, s, blocks, rfl, hr, ?_⟩
  obtain ⟨taken, position, buffer, _⟩ := s
  cases ht
  cases hb
  rw [step_closing hc.1 hu hc.2, ← hs, ← ho]

theorem compileTokens_of_substitute {tree : Tree} {e : Fault}
    (h : engine.Closes options tokens spine closed)
    (hp : parseCode options.file spine.source spine.opening.line = .ok tree)
    (hc : substitute closed.sections tree = .error e) :
    compileTokens engine options tokens = .error e := by
  obtain ⟨before, tag, later, s, blocks, rfl, hr, hs⟩ := h.step
  rw [hp, ok_bind, hc, error_bind] at hs
  change (engine.generate _ _ _ _ >>= fun result => pure result.1) = _
  rw [generate_append, hr, ok_bind, generate_cons, hs]
  rfl

end Engine.Closes

namespace Cursor

def ended? (c : Cursor) : Token → Option Spine
  | .text _ _ => none
  | .tag tag =>
    match tag.kind, c.frames with
    | .closing, frame :: _ => some (frame.extend c.items tag).spine
    | _, _ => none

def ends (c : Cursor) : List Token → List Spine
  | [] => []
  | token :: tokens => (c.ended? token).toList ++ (c.next token).elim [] fun c => c.ends tokens

theorem mem_ends {c c' : Cursor} {before later : List Token} {token : Token}
    (ha : c.after before = some c') (he : c'.ended? token = some spine) :
    spine ∈ c.ends (before ++ token :: later) := by
  induction before generalizing c with
  | nil =>
    cases ha
    exact List.mem_append_left _ (by simp [he])
  | cons t before ih =>
    obtain ⟨c₁, hn, ha⟩ := Option.bind_eq_some_iff.1 ha
    refine List.mem_append_right _ ?_
    rw [hn]
    exact ih ha

end Cursor

theorem Engine.Closes.mem_ends [CharacterNames] (h : engine.Closes options tokens spine closed) :
    spine ∈ Cursor.ends {} tokens := by
  obtain ⟨hr, ht, hb, hc, hu, ha⟩ := h
  refine Cursor.mem_ends ha ?_
  rw [Cursor.ended?, hc.1]

@[simp] theorem tagsOf_append (tokens more : List Token) :
    tagsOf (tokens ++ more) = tagsOf tokens ++ tagsOf more := List.filterMap_append ..

@[simp] theorem tagsOf_tag (tag : Tag) (tokens : List Token) :
    tagsOf (.tag tag :: tokens) = tag :: tagsOf tokens := rfl

@[simp] theorem tagsOf_nil : tagsOf [] = [] := rfl

theorem tagsOf_fold (fold : Option Fold) :
    tagsOf (fold.elim [] Fold.tokens) = (fold.map Fold.tag).toList := by
  obtain _ | ⟨_ | _, _⟩ := fold <;> rfl

theorem tags_sublist_sections (sections : List Section) :
    (sections.map Section.tag).Sublist (tagsOf (sectionsTokens sections)) := by
  induction sections with
  | nil => exact .slnil
  | cons s sections ih =>
    obtain ⟨items, tag⟩ := s
    simp only [List.map_cons, Section.tag, sectionsTokens, Section.tokens, tagsOf_append,
      tagsOf_tag, List.append_assoc, List.singleton_append]
    exact (ih.cons_cons tag).trans (List.sublist_append_right ..)

theorem Frame.tags_sublist (frame : Frame) :
    frame.spine.tags.Sublist (tagsOf frame.block.tokens) := by
  simp only [Frame.spine, Spine.tags, Frame.block, Item.tokens, List.cons_append, tagsOf_tag,
    tagsOf_append, tagsOf_fold]
  exact ((tags_sublist_sections _).append_left _).cons_cons _

theorem Engine.Closes.tags_sublist [CharacterNames]
    (h : engine.Closes options tokens spine closed) :
    spine.tags.Sublist (tagsOf tokens) := by
  obtain @⟨before, tag, later, s, block, blocks, frame, frames, items, hr, ht, hb, hc, hu, ha⟩ := h
  have hn : Cursor.next ⟨frame :: frames, items⟩ (.tag tag) =
    some ⟨frames, frame.before ++ [(frame.extend items tag).block]⟩ := Cursor.after_closes hc
  have htokens : before ++ .tag tag :: later = framesTokens frames ++ itemsTokens frame.before ++
      (frame.extend items tag).block.tokens ++ later := by
    have := Cursor.tokens_next hn
    rw [Cursor.tokens_after ha] at this
    simp only [Cursor.tokens, itemsTokens_append, framesTokens, itemsTokens,
      List.nil_append] at this
    rw [← List.singleton_append, ← List.append_assoc, ← this]
    simp only [List.append_assoc]
  rw [htokens, tagsOf_append, tagsOf_append]
  exact ((Frame.tags_sublist _).trans (List.sublist_append_right ..)).trans
    (List.sublist_append_left ..)

end EmbeddedTemplate.Template
