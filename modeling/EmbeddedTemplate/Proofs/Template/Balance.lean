import EmbeddedTemplate.Proofs.Template.Meaning
import EmbeddedTemplate.Proofs.Template.Substitute

namespace EmbeddedTemplate.Template

def Tag.violation? (tag : Tag) (depth : Nat) : Option Cause :=
  match tag.kind, depth with
  | .middle, depth =>
    if !tag.marker.isEmpty then some (.misplacedMarker tag.marker tag.code)
    else if depth = 0 then some (.misplacedTag tag.code)
    else none
  | .closing, 0 => some (.misplacedTag tag.code)
  | .closing, _ + 1 =>
    if !tag.marker.isEmpty then some (.misplacedMarker tag.marker tag.code) else none
  | _, _ => none

def Tag.depthAfter (tag : Tag) (depth : Nat) : Nat :=
  match tag.kind with
  | .opening => depth + 1
  | .closing => depth - 1
  | _ => depth

def balance (depth : Nat) : List Token → Except (Tag × Cause) Nat
  | [] => .ok depth
  | .text _ _ :: tokens => balance depth tokens
  | .tag tag :: tokens =>
    match tag.violation? depth with
    | some cause => .error (tag, cause)
    | none => balance (tag.depthAfter depth) tokens

def Balanced (tokens : List Token) : Prop := balance 0 tokens = .ok 0

variable {depth : Nat} {tokens more : List Token} {tag : Tag} {cause : Cause}

theorem balance_append : balance depth (tokens ++ more) =
    balance depth tokens >>= fun depth => balance depth more := by
  induction tokens generalizing depth with
  | nil => rfl
  | cons token tokens ih =>
    cases token with
    | text line content => exact ih
    | tag tag =>
      simp only [List.cons_append, balance]
      split
      · rfl
      · exact ih

theorem Cursor.next_tag (c : Cursor) (tag : Tag) :
    (∃ cause, tag.violation? c.frames.length = some cause ∧ c.next (.tag tag) = none) ∨
    ∃ c', tag.violation? c.frames.length = none ∧ c.next (.tag tag) = some c' ∧
      c'.frames.length = tag.depthAfter c.frames.length := by
  obtain ⟨frames, items⟩ := c
  cases hk : tag.kind with
  | plain =>
    refine .inr ⟨_, by simp [Tag.violation?, hk], by simp only [Cursor.next, hk]; rfl, ?_⟩
    simp [Tag.depthAfter, hk, Cursor.add]
  | opening =>
    refine .inr ⟨_, by simp [Tag.violation?, hk], by simp only [Cursor.next, hk]; rfl, ?_⟩
    simp [Tag.depthAfter, hk]
  | middle =>
    cases frames with
    | nil =>
      refine .inl ?_
      by_cases hm : tag.marker.isEmpty <;> simp [Tag.violation?, Cursor.next, hk, hm]
    | cons frame frames =>
      by_cases hm : tag.marker.isEmpty
      · refine .inr ⟨_, by simp [Tag.violation?, hk, hm], by simp [Cursor.next, hk, hm]; rfl, ?_⟩
        unfold Cursor.middle
        split <;> simp [Tag.depthAfter, hk]
      · exact .inl (by simp [Tag.violation?, Cursor.next, hk, hm])
  | closing =>
    cases frames with
    | nil => exact .inl (by simp [Tag.violation?, Cursor.next, hk])
    | cons frame frames =>
      by_cases hm : tag.marker.isEmpty
      · refine .inr ⟨_, by simp [Tag.violation?, hk, hm], by simp [Cursor.next, hk, hm]; rfl, ?_⟩
        simp [Tag.depthAfter, hk]
      · exact .inl (by simp [Tag.violation?, Cursor.next, hk, hm])

theorem Cursor.balance_of_after {c c' : Cursor} (h : c.after tokens = some c') :
    balance c.frames.length tokens = .ok c'.frames.length := by
  induction tokens generalizing c with
  | nil =>
    cases h
    rfl
  | cons token tokens ih =>
    rw [after, Option.bind_eq_some_iff] at h
    obtain ⟨c₁, hn, ha⟩ := h
    cases token with
    | text line content =>
      cases hn
      have := ih ha
      exact this
    | tag tag =>
      obtain ⟨_, _, hn'⟩ | ⟨c₂, hv, hn', hd⟩ := c.next_tag tag
      · rw [hn] at hn'
        cases hn'
      · rw [hn, Option.some.injEq] at hn'
        subst hn'
        rw [balance, hv]
        change balance (tag.depthAfter _) tokens = _
        rw [← hd]
        exact ih ha

theorem balance_continues (h : tag.continues) :
    balance (depth + 1) (.tag tag :: tokens) = balance (depth + 1) tokens := by
  obtain ⟨hk, hm⟩ : tag.kind = .middle ∧ tag.marker.isEmpty := by simpa [Tag.continues] using h
  simp only [balance, Tag.violation?, Tag.depthAfter, hk, hm]
  simp

theorem balance_closes (h : tag.closes) :
    balance (depth + 1) (.tag tag :: tokens) = balance depth tokens := by
  simp only [balance, Tag.violation?, Tag.depthAfter, h.1, h.2]
  simp

theorem balance_fold {fold : Fold} (h : fold.Proper) :
    balance (depth + 1) (fold.tokens ++ tokens) = balance (depth + 1) tokens := by
  have ht : balance (depth + 1) (.tag fold.tag :: tokens) = balance (depth + 1) tokens :=
    balance_continues h.1
  obtain ⟨_ | ⟨line, blank⟩, t⟩ := fold
  · exact ht
  · exact ht

mutual

theorem balance_item (item : Item) (h : item.Proper) (depth : Nat) (more : List Token) :
    balance depth (item.tokens ++ more) = balance depth more := by
  cases item with
  | text line content => rfl
  | plain tag =>
    have hk : tag.kind = .plain := h
    simp [Item.tokens, balance, Tag.violation?, Tag.depthAfter, hk]
  | block opening fold sections =>
    obtain ⟨hk, hf, -, hs, hc⟩ := h
    have hopen : balance depth (.tag opening :: (fold.elim [] Fold.tokens ++
        (sectionsTokens sections ++ more))) =
      balance (depth + 1) (fold.elim [] Fold.tokens ++ (sectionsTokens sections ++ more)) := by
      simp [balance, Tag.violation?, Tag.depthAfter, hk]
    rw [Item.tokens, List.cons_append, List.cons_append, List.append_assoc, hopen]
    cases fold with
    | none => exact balance_sections sections hs hc depth more
    | some fold =>
      exact (balance_fold (hf fold rfl)).trans (balance_sections sections hs hc depth more)

theorem balance_items (items : List Item) (h : itemsProper items) (depth : Nat)
    (more : List Token) : balance depth (itemsTokens items ++ more) = balance depth more := by
  cases items with
  | nil => rfl
  | cons item items =>
    rw [itemsTokens, List.append_assoc, balance_item item h.1, balance_items items h.2]

theorem balance_section (s : Section) (h : s.Proper) (depth : Nat) (more : List Token) :
    balance depth (s.tokens ++ more) = balance depth (.tag s.tag :: more) := by
  cases s with
  | mk items tag =>
    rw [Section.tokens, List.append_assoc, balance_items items h]
    rfl

theorem balance_sections (sections : List Section) (h : sectionsProper sections)
    (hc : Closed (sections.map Section.tag)) (depth : Nat) (more : List Token) :
    balance (depth + 1) (sectionsTokens sections ++ more) = balance depth more := by
  cases sections with
  | nil => exact absurd hc not_closed_nil
  | cons s sections =>
    rw [sectionsTokens, List.append_assoc, balance_section s h.1]
    obtain ⟨hs, hc⟩ | ⟨ht, hc⟩ := closed_cons.1 hc
    · rw [balance_closes hc, List.map_eq_nil_iff.1 hs]
      rfl
    · rw [balance_continues ht, balance_sections sections h.2 hc]

end

theorem Frame.Proper.exists_last {frame : Frame} (h : frame.Proper) :
    ∃ before tag, frame.block.tokens = before ++ [.tag tag] ∧
      (tag.kind = .opening ∨ tag.kind = .middle) ∧
      tag.line = Spine.lastLine frame.spine.headLine frame.spine.later := by
  obtain hs | ⟨sections, ⟨items, tag⟩, hs⟩ := List.eq_nil_or_concat frame.sections
  · cases hf : frame.fold with
    | none =>
      refine ⟨[], frame.opening, ?_, .inl h.opening, ?_⟩
      · simp [Frame.block, Item.tokens, hs, hf, sectionsTokens]
      · simp [Frame.spine, hs, hf, Spine.headLine, Spine.lastLine]
    | some fold =>
      have ht := (h.fold fold hf).1
      refine ⟨.tag frame.opening :: (fold.blank.map fun text => .text text.1 text.2).toList,
        fold.tag, ?_, .inr ?_, ?_⟩
      · simp [Frame.block, Item.tokens, hs, hf, sectionsTokens, Fold.tokens]
      · simp_all [Tag.continues]
      · simp [Frame.spine, hs, hf, Spine.headLine, Spine.lastLine]
  · have ht : tag.continues := h.tags (.mk items tag) (by simp [hs])
    refine ⟨.tag frame.opening :: frame.fold.elim [] Fold.tokens ++ sectionsTokens sections ++
      itemsTokens items, tag, ?_, .inr ?_, ?_⟩
    · simp [Frame.block, Item.tokens, hs, sectionsTokens_append, Section.tokens]
    · simp_all [Tag.continues]
    · simp [Frame.spine, hs, Section.tag, Spine.lastLine_append]

/-- The tag is the last one of the innermost block that the tokens leave open. -/
def LastOwnTag (tag : Tag) (tokens : List Token) : Prop :=
  ∃ before behind, tokens = before ++ .tag tag :: behind ∧
    (tag.kind = .opening ∨ tag.kind = .middle) ∧ Balanced behind

theorem Cursor.exists_lastOwnTag {frame : Frame} {frames : List Frame} {items : List Item}
    (h : Cursor.after {} tokens = some ⟨frame :: frames, items⟩) :
    ∃ tag, LastOwnTag tag tokens ∧
      tag.line = Spine.lastLine frame.spine.headLine frame.spine.later := by
  have hp := proper_after proper_start h
  obtain ⟨before, tag, ht, hk, hl⟩ := (hp.frames frame (by simp)).exists_last
  refine ⟨tag, ⟨framesTokens frames ++ itemsTokens frame.before ++ before, itemsTokens items, ?_,
    hk, ?_⟩, hl⟩
  · have := tokens_after h
    simp only [Cursor.tokens, framesTokens, itemsTokens, List.nil_append, ht] at this
    simp [← this]
  · have := balance_items items hp.items 0 []
    rwa [List.append_nil] at this

def Fault.isStructural : Fault → Bool
  | .source fault =>
    fault.scope = .template &&
      match fault.cause with
      | .misplacedTag _ | .misplacedMarker _ _ | .unclosedBlock => true
      | _ => false
  | _ => false

/-- The fault comes from the engine. -/
def Engine.Raises (engine : Engine) (file : String) (e : Fault) : Prop :=
  (∃ buffer content, engine.text buffer content = .error e) ∨
  (∃ tag buffer tree, engine.add file tag buffer tree = .error e) ∨
  ∃ buffer, engine.body buffer = .error e

theorem not_isStructural_parseCode [CharacterNames] {file code : String} {line : Int} {e : Fault}
    (h : parseCode file code line = .error e) : Fault.isStructural e = false := by
  unfold parseCode at h
  cases hp : Code.parse code line with
  | ok tree => simp [hp] at h
  | error fault =>
    simp only [hp, mapError_error, Except.error.injEq] at h
    simp [← h, Fault.isStructural]

theorem Fails.violation [CharacterNames] {engine : Engine} {file : String} {s : State}
    {token : Token} {e : Fault}
    (h : Fails engine file s token e) (he : Fault.isStructural e) (hr : ¬ engine.Raises file e) :
    ∃ tag cause, token = .tag tag ∧ tag.violation? s.blocks.length = some cause ∧
      e = fault file tag.line cause := by
  cases h with
  | text h => exact absurd (.inl ⟨_, _, h⟩) hr
  | reserved => cases he
  | plainCode _ h | blockCode _ _ _ h =>
    rw [not_isStructural_parseCode h] at he
    cases he
  | plainTree _ _ h | blockTree _ _ _ _ _ h => exact absurd (.inr (.inl ⟨_, _, _, h⟩)) hr
  | markedMiddle hk hm => exact ⟨_, _, rfl, by simp_all [Tag.violation?], rfl⟩
  | middleOutside hk hm => exact ⟨_, _, rfl, by simp_all [Tag.violation?], rfl⟩
  | closingOutside hk => exact ⟨_, _, rfl, by simp [Tag.violation?, hk], rfl⟩
  | markedClosing hk hm => exact ⟨_, _, rfl, by simp_all [Tag.violation?], rfl⟩
  | noSection _ _ _ _ _ h =>
    obtain ⟨key, rfl⟩ := noSection_of_substitute _ h
    cases he

theorem State.Follows.balance [CharacterNames] {engine : Engine} {file : String} {init : Tree}
    {later read : List Token} {s : State} {c : Cursor}
    (h : s.Follows engine file init tokens later read c) :
    Template.balance 0 read = .ok s.blocks.length := by
  rw [h.blocks.length_eq]
  exact Cursor.balance_of_after h.after

theorem generate_structural [CharacterNames] {engine : Engine} {file : String} {init : Tree}
    {e : Fault} (h : engine.generate file init { buffer := init } tokens = .error e)
    (he : Fault.isStructural e) (hr : ¬ engine.Raises file e) :
    (∃ tag cause, balance 0 tokens = .error (tag, cause) ∧ e = fault file tag.line cause) ∨
    ∃ depth tag, balance 0 tokens = .ok (depth + 1) ∧ LastOwnTag tag tokens ∧
      e = fault file tag.line .unclosedBlock := by
  -- At the end of the tokens a block is open; at one of them the structure is violated.
  obtain ⟨s, hs, hf⟩ | ⟨before, token, later, s, rfl, hs, hf⟩ := generate_eq_error h
  · obtain ⟨read, c, hF⟩ := run_follows (by simpa using start_follows) hs
    obtain ⟨block, blocks, hb, rfl⟩ | ⟨_, hf⟩ := finish_eq_error.1 hf
    · refine .inr ⟨blocks.length, ?_⟩
      have hread : read = tokens := by simpa using hF.split
      have hbalance := hread ▸ hF.balance
      have hblocks := hF.blocks
      rw [hb] at hblocks hbalance
      obtain ⟨frames, items⟩ := c
      cases hblocks with
      | cons hblock _ =>
        obtain ⟨tag, ht, hl⟩ := Cursor.exists_lastOwnTag hF.after_all.2
        exact ⟨tag, hbalance, ht, by rw [hl, ← hblock.line]⟩
    · exact absurd (.inr (.inr ⟨_, hf⟩)) hr
  · obtain ⟨read, c, hF⟩ := run_follows start_follows hs
    obtain ⟨tag, cause, rfl, hv, rfl⟩ := hf.violation he hr
    refine .inl ⟨tag, cause, ?_, rfl⟩
    have hread : read = before := by
      have := hF.split
      rw [hf.taken] at this
      simpa using this
    rw [balance_append, ← hread, hF.balance, ok_bind, Template.balance, hv]

/--
The compiler accepts the structure of the balanced templates only: it makes an artifact only of
them, having gone over all their tokens, finds no fault with the structure of any of them, and any
fault that it finds with the structure of another template is the first one.
-/
theorem generate_balanced [CharacterNames] (engine : Engine) (file : String) (init : Tree)
    (tokens : List Token) :
    (∀ artifact position, engine.generate file init { buffer := init } tokens =
      .ok (artifact, position) → Balanced tokens ∧ position = tokens.length) ∧
    (Balanced tokens → ∀ e, engine.generate file init { buffer := init } tokens = .error e →
      Fault.isStructural e → engine.Raises file e) ∧
    ∀ e, engine.generate file init { buffer := init } tokens = .error e →
      Fault.isStructural e → ¬ engine.Raises file e →
      (∃ tag cause, balance 0 tokens = .error (tag, cause) ∧ e = fault file tag.line cause) ∨
      ∃ depth tag, balance 0 tokens = .ok (depth + 1) ∧ LastOwnTag tag tokens ∧
        e = fault file tag.line .unclosedBlock := by
  refine ⟨fun artifact position h => ?_, fun hb e h he => ?_, fun e => generate_structural⟩
  · rw [generate_eq_run, bind_eq_ok] at h
    obtain ⟨s, hs, hf⟩ := h
    obtain ⟨hb, _, hp⟩ := finish_eq_ok.1 hf
    obtain ⟨read, c, hF⟩ := run_follows (by simpa using start_follows) hs
    have hread : read = tokens := by simpa using hF.split
    refine ⟨?_, hp ▸ hF.after_all.1⟩
    rw [Balanced, ← hread, hF.balance, hb]
    rfl
  · by_contra hr
    rw [Balanced] at hb
    obtain ⟨_, _, h, _⟩ | ⟨_, _, h, _⟩ := generate_structural h he hr
    · rw [hb] at h
      cases h
    · rw [hb] at h
      cases h

theorem isStructural_locateFault (file : String) (line : Int) (e : Fault) :
    Fault.isStructural (locateFault file line e) = Fault.isStructural e := by
  cases e with
  | source fault =>
    simp only [locateFault, SourceFault.locate]
    split <;> rfl
  | noSection key => rfl
  | notABuffer => rfl

theorem Engine.not_isStructural_of_record {buffer : Tree} {entry : List Tree} {e : Fault}
    (h : record buffer entry = .error e) : Fault.isStructural e = false := by
  unfold record at h
  split at h <;> cases h
  rfl

theorem Engine.not_isStructural_of_concat {buffer t : Tree} {marker : String} {e : Fault}
    (h : concat.expression buffer marker t = .error e) : Fault.isStructural e = false := by
  simp only [concat] at h
  split at h
  · cases h
  · split at h <;> cases h
    rfl

theorem Engine.not_isStructural_of_raises {name : EngineName} {file : String} {e : Fault}
    (h : (Engine.ofName name).Raises file e) : Fault.isStructural e = false := by
  obtain ⟨buffer, content, h⟩ | ⟨tag, buffer, tree, h⟩ | ⟨buffer, h⟩ := h
  · cases name with
    | smart | concat | strict => cases h
    | recording | indenting => exact not_isStructural_of_record h
  · obtain ⟨e', h', rfl⟩ : ∃ e', (Engine.ofName name).expression buffer tag.marker tree =
        .error e' ∧ locateFault file tag.line e' = e := by
      unfold Engine.add at h
      cases hx : (Engine.ofName name).expression buffer tag.marker tree with
      | ok t => simp [hx] at h
      | error e' => exact ⟨e', rfl, by simpa [hx] using h⟩
    rw [isStructural_locateFault]
    cases name with
    | smart | concat => exact not_isStructural_of_concat h'
    | recording | indenting => exact not_isStructural_of_record h'
    | strict =>
      simp only [ofName, strict] at h'
      split at h'
      · cases h'
        rfl
      · split at h'
        · cases h'
          rfl
        · exact not_isStructural_of_concat h'
  · cases name with
    | smart | concat | strict => cases h
    | recording | indenting =>
      simp only [ofName, recording, indenting] at h
      split at h <;> cases h
      rfl

/--
A block inside of a section is accepted. With the block around it left open, the fault is on the
line of that block's `else`, though the other block starts and ends behind it.
-/
theorem generate_balanced_nested :
    let run := Engine.smart.generate "nofile" (.str "") { buffer := .str "" }
    let outer : List Token :=
      [.tag ⟨.opening, 1, "=", " if x do "⟩, .text 1 "A", .tag ⟨.middle, 2, "", " else "⟩]
    let inner : List Token :=
      [.tag ⟨.opening, 3, "", " if y do "⟩, .text 3 "B", .tag ⟨.closing, 4, "", " end "⟩]
    let closed := outer ++ inner ++ [.tag ⟨.closing, 5, "", " end "⟩]
    let unclosed := outer ++ inner
    (∃ artifact, run closed = .ok (artifact, 7) ∧ Balanced closed) ∧
      run unclosed = .error (fault "nofile" 2 .unclosedBlock) ∧ balance 0 unclosed = .ok 1 ∧
      ∃ tag, LastOwnTag tag unclosed ∧ tag.line = 2 := by
  intro run outer inner closed unclosed
  obtain ⟨⟨artifact, position⟩, hc⟩ : ∃ result, run closed = .ok result :=
    isSome_toOption.1 (by decide +kernel)
  obtain ⟨hbalanced, rfl⟩ :=
    (generate_balanced Engine.smart "nofile" (.str "") closed).1 artifact position hc
  have hu : run unclosed = .error (fault "nofile" 2 .unclosedBlock) := by decide +kernel
  have hbalance : balance 0 unclosed = .ok 1 := by decide +kernel
  have hraises (e : Fault) (h : Fault.isStructural e) : ¬(Engine.ofName .smart).Raises "nofile" e :=
    fun hr => by
      rw [Engine.not_isStructural_of_raises hr] at h
      cases h
  refine ⟨⟨artifact, hc, hbalanced⟩, hu, hbalance, ?_⟩
  obtain ⟨tag, cause, h, -⟩ | ⟨depth, tag, -, htag, hline⟩ :=
    (generate_balanced Engine.smart "nofile" (.str "") unclosed).2.2 _ hu rfl (hraises _ rfl)
  · rw [hbalance] at h
    cases h
  · refine ⟨tag, htag, ?_⟩
    simpa [fault, eq_comm] using hline

end EmbeddedTemplate.Template
