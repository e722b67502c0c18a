import EmbeddedTemplate.Template.Compile

/-!
The outline of a template: its tokens grouped into texts, plain tags and blocks. An outline is read
off the tokens alone, with a stack of open blocks and without looking ahead.
-/

namespace EmbeddedTemplate.Template

/-- A middle tag right behind an opening tag, with blank text in front of it if there is some. -/
structure Fold where
  blank : Option (Int × String)
  tag : Tag
deriving DecidableEq, Repr

def Fold.code (fold : Fold) : String := (fold.blank.elim "" (·.2)) ++ fold.tag.code

/-- The tags of a block: the opening tag, the fold behind it, and the tags that end the sections. -/
structure Spine where
  opening : Tag
  fold : Option Fold
  later : List Tag
deriving DecidableEq, Repr

namespace Spine

def head (spine : Spine) : String := spine.opening.code ++ spine.fold.elim "" Fold.code

def headLine (spine : Spine) : Int := spine.fold.elim spine.opening.line fun fold => fold.tag.line

def breaks (line : Int) (tag : Tag) : String :=
  String.ofList (List.replicate (tag.line - line).toNat '\n')

def tail (key : Nat) (line : Int) : List Tag → String
  | [] => ""
  | tag :: tags => placeholder key ++ breaks line tag ++ tag.code ++ tail (key + 1) tag.line tags

def source (spine : Spine) : String := spine.head ++ tail 0 spine.headLine spine.later

def lastLine (line : Int) : List Tag → Int
  | [] => line
  | tag :: tags => lastLine tag.line tags

end Spine

mutual

inductive Item
  | text (line : Int) (content : String)
  | plain (tag : Tag)
  | block (opening : Tag) (fold : Option Fold) (sections : List Section)

inductive Section
  | mk (items : List Item) (tag : Tag)

end

def Section.items : Section → List Item
  | .mk items _ => items

def Section.tag : Section → Tag
  | .mk _ tag => tag

theorem Section.mk_items_tag (s : Section) : .mk s.items s.tag = s := by
  cases s
  rfl

def Fold.tokens (fold : Fold) : List Token :=
  (fold.blank.map fun text => Token.text text.1 text.2).toList ++ [.tag fold.tag]

mutual

def Item.tokens : Item → List Token
  | .text line content => [.text line content]
  | .plain tag => [.tag tag]
  | .block opening fold sections =>
    .tag opening :: fold.elim [] Fold.tokens ++ sectionsTokens sections

def itemsTokens : List Item → List Token
  | [] => []
  | item :: items => item.tokens ++ itemsTokens items

def Section.tokens : Section → List Token
  | .mk items tag => itemsTokens items ++ [.tag tag]

def sectionsTokens : List Section → List Token
  | [] => []
  | s :: sections => s.tokens ++ sectionsTokens sections

end

structure Frame where
  before : List Item
  opening : Tag
  fold : Option Fold
  sections : List Section

namespace Frame

def spine (frame : Frame) : Spine := ⟨frame.opening, frame.fold, frame.sections.map Section.tag⟩

def extend (frame : Frame) (items : List Item) (tag : Tag) : Frame :=
  { frame with sections := frame.sections ++ [.mk items tag] }

def block (frame : Frame) : Item := .block frame.opening frame.fold frame.sections

end Frame

/-- The blank text that a fold may have, if nothing else has been read since the opening tag. -/
def foldBlank? : List Item → Option (Option (Int × String))
  | [] => some none
  | [.text line content] =>
    if content.toList.all Text.isGap then some (some (line, content)) else none
  | _ => none

/-- A place in a template: the open blocks, the innermost first, and the items behind their tags. -/
structure Cursor where
  frames : List Frame := []
  items : List Item := []

namespace Cursor

def add (c : Cursor) (item : Item) : Cursor := { c with items := c.items ++ [item] }

def middle (frame : Frame) (frames : List Frame) (items : List Item) (tag : Tag) : Cursor :=
  match frame.fold, frame.sections, foldBlank? items with
  | none, [], some blank => ⟨{ frame with fold := some ⟨blank, tag⟩ } :: frames, []⟩
  | _, _, _ => ⟨frame.extend items tag :: frames, []⟩

def next (c : Cursor) : Token → Option Cursor
  | .text line content => some (c.add (.text line content))
  | .tag tag =>
    match tag.kind, c.frames with
    | .plain, _ => some (c.add (.plain tag))
    | .opening, frames => some ⟨⟨c.items, tag, none, []⟩ :: frames, []⟩
    | .middle, frame :: frames =>
      if tag.marker.isEmpty then some (middle frame frames c.items tag) else none
    | .closing, frame :: frames =>
      if tag.marker.isEmpty then
        some ⟨frames, frame.before ++ [(frame.extend c.items tag).block]⟩
      else none
    | _, [] => none

def after (c : Cursor) : List Token → Option Cursor
  | [] => some c
  | token :: tokens => (c.next token).bind fun c => after c tokens

end Cursor

def outline? (tokens : List Token) : Option (List Item) :=
  match Cursor.after {} tokens with
  | some ⟨[], items⟩ => some items
  | _ => none

namespace Spine

theorem tail_append (key : Nat) (line : Int) (tags : List Tag) (tag : Tag) :
    tail key line (tags ++ [tag]) = tail key line tags ++ placeholder ↑(key + tags.length) ++
      breaks (lastLine line tags) tag ++ tag.code := by
  induction tags generalizing key line with
  | nil => simp [tail, lastLine]
  | cons t tags ih =>
    rw [List.cons_append, tail, ih, tail, lastLine, List.length_cons, Nat.add_right_comm key 1,
      ← Nat.add_assoc]
    simp only [String.append_assoc]

theorem lastLine_append (line : Int) (tags : List Tag) (tag : Tag) :
    lastLine line (tags ++ [tag]) = tag.line := by
  induction tags generalizing line with
  | nil => rfl
  | cons t tags ih => exact ih t.line

end Spine

theorem itemsTokens_append (items : List Item) (item : Item) :
    itemsTokens (items ++ [item]) = itemsTokens items ++ item.tokens := by
  induction items with
  | nil => simp [itemsTokens]
  | cons i items ih => simp [itemsTokens, ih]

theorem sectionsTokens_append (sections : List Section) (s : Section) :
    sectionsTokens (sections ++ [s]) = sectionsTokens sections ++ s.tokens := by
  induction sections with
  | nil => simp [sectionsTokens]
  | cons i sections ih => simp [sectionsTokens, ih]

def framesTokens : List Frame → List Token
  | [] => []
  | frame :: frames => framesTokens frames ++ itemsTokens frame.before ++ frame.block.tokens

def Cursor.tokens (c : Cursor) : List Token := framesTokens c.frames ++ itemsTokens c.items

namespace Cursor

theorem tokens_add (c : Cursor) (item : Item) : (c.add item).tokens = c.tokens ++ item.tokens := by
  simp [tokens, add, itemsTokens_append]

theorem foldBlank?_eq_some {items : List Item} {blank : Option (Int × String)}
    (h : foldBlank? items = some blank) :
    itemsTokens items = (blank.map fun text => Token.text text.1 text.2).toList ∧
      ∀ text ∈ blank, text.2.toList.all Text.isGap := by
  unfold foldBlank? at h
  split at h
  · cases h
    simp [itemsTokens]
  · split at h
    · cases h
      simp_all [itemsTokens, Item.tokens]
    · cases h
  · cases h

theorem eq_nil_of_foldBlank? {items : List Item} {item : Item}
    (h : (foldBlank? (items ++ [item])).isSome) : items = [] := by
  match items with
  | [] => rfl
  | [i] => simp [foldBlank?] at h
  | i :: i' :: items => simp [foldBlank?] at h

theorem foldBlank?_block (items : List Item) (frame : Frame) :
    foldBlank? (items ++ [frame.block]) = none := by
  cases items with
  | nil => rfl
  | cons i items =>
    rw [← Option.not_isSome_iff_eq_none]
    intro h
    cases eq_nil_of_foldBlank? h

theorem tokens_middle (frame : Frame) (frames : List Frame) (items : List Item) (tag : Tag) :
    (middle frame frames items tag).tokens = tokens ⟨frame :: frames, items⟩ ++ [.tag tag] := by
  unfold middle
  split
  · next hf hs hb =>
    have := (foldBlank?_eq_some hb).1
    simp [tokens, framesTokens, Frame.block, Item.tokens, hf, hs, Fold.tokens, sectionsTokens,
      itemsTokens, this]
  · simp [tokens, framesTokens, Frame.block, Frame.extend, Item.tokens, sectionsTokens_append,
      Section.tokens, itemsTokens]

theorem tokens_next {c c' : Cursor} {token : Token} (h : c.next token = some c') :
    c'.tokens = c.tokens ++ [token] := by
  obtain ⟨frames, items⟩ := c
  cases token with
  | text line content =>
    cases h
    exact tokens_add _ _
  | tag tag =>
    simp only [next] at h
    split at h
    · cases h
      exact tokens_add _ _
    · cases h
      simp_all [tokens, framesTokens, Frame.block, Item.tokens, sectionsTokens, itemsTokens]
    · split at h
      · cases h
        exact tokens_middle ..
      · cases h
    · split at h
      · cases h
        simp [tokens, framesTokens, itemsTokens_append, Frame.block, Frame.extend, Item.tokens,
          sectionsTokens_append, Section.tokens]
      · cases h
    · cases h

theorem tokens_after {c c' : Cursor} {tokens : List Token} (h : c.after tokens = some c') :
    c'.tokens = c.tokens ++ tokens := by
  induction tokens generalizing c with
  | nil =>
    cases h
    simp
  | cons token tokens ih =>
    rw [after, Option.bind_eq_some_iff] at h
    obtain ⟨c₁, hn, ha⟩ := h
    rw [ih ha, tokens_next hn, List.append_assoc, List.singleton_append]

theorem after_append (c : Cursor) (tokens more : List Token) :
    c.after (tokens ++ more) = (c.after tokens).bind fun c => c.after more := by
  induction tokens generalizing c with
  | nil => rfl
  | cons token tokens ih =>
    rw [List.cons_append, after, after, Option.bind_assoc]
    exact congrArg _ (funext ih)

theorem after_concat {c c' c'' : Cursor} {tokens : List Token} {token : Token}
    (h : c.after tokens = some c') (hn : c'.next token = some c'') :
    c.after (tokens ++ [token]) = some c'' := by
  rw [after_append, h, Option.bind_some, after, hn, Option.bind_some, after]

end Cursor

theorem itemsTokens_of_outline? {tokens : List Token} {items : List Item}
    (h : outline? tokens = some items) : itemsTokens items = tokens := by
  unfold outline? at h
  split at h
  · next ha =>
    cases h
    simpa [Cursor.tokens, framesTokens, itemsTokens] using Cursor.tokens_after ha
  · cases h

def Fold.Proper (fold : Fold) : Prop :=
  fold.tag.continues ∧ ∀ text ∈ fold.blank, text.2.toList.all Text.isGap

def StartsWithFold (tokens : List Token) : Prop :=
  ∃ (fold : Fold) (rest : List Token), fold.Proper ∧ tokens = fold.tokens ++ rest

theorem startsWithFold_tag {tag : Tag} {rest : List Token}
    (h : StartsWithFold (.tag tag :: rest)) : tag.continues := by
  obtain ⟨⟨_ | ⟨line, blank⟩, t⟩, rest', hp, h⟩ := h
  · cases h
    exact hp.1
  · cases h

theorem startsWithFold_text {line : Int} {blank : String} {rest : List Token}
    (h : StartsWithFold (.text line blank :: rest)) :
    blank.toList.all Text.isGap ∧ ∃ tag rest', tag.continues ∧ rest = .tag tag :: rest' := by
  obtain ⟨⟨_ | ⟨line', blank'⟩, t⟩, rest', hp, h⟩ := h
  · cases h
  · cases h
    exact ⟨hp.2 _ rfl, t, rest', hp.1, rfl⟩

def Tag.closes (t : Tag) : Prop := t.kind = .closing ∧ t.marker.isEmpty

def Closed (tags : List Tag) : Prop :=
  ∃ init last, tags = init ++ [last] ∧ (∀ t ∈ init, t.continues) ∧ last.closes

theorem not_closed_nil : ¬ Closed [] := by
  rintro ⟨init, last, h, -⟩
  simp at h

theorem closed_cons {tag : Tag} {tags : List Tag} : Closed (tag :: tags) ↔
    tags = [] ∧ tag.closes ∨ tag.continues ∧ Closed tags := by
  constructor
  · rintro ⟨init, last, h, hi, hl⟩
    cases init with
    | nil =>
      cases h
      exact .inl ⟨rfl, hl⟩
    | cons t init =>
      cases h
      obtain ⟨ht, hi⟩ := List.forall_mem_cons.1 hi
      exact .inr ⟨ht, init, last, rfl, hi, hl⟩
  · rintro (⟨rfl, h⟩ | ⟨ht, init, last, rfl, hi, hl⟩)
    · exact ⟨[], tag, rfl, by simp, h⟩
    · exact ⟨tag :: init, last, rfl, List.forall_mem_cons.2 ⟨ht, hi⟩, hl⟩

mutual

/-- The tags play their parts, and a block that may have a fold has one. -/
def Item.Proper : Item → Prop
  | .text _ _ => True
  | .plain tag => tag.kind = .plain
  | .block opening fold sections =>
    opening.kind = .opening ∧ (∀ f ∈ fold, f.Proper) ∧
      (fold = none → ¬ StartsWithFold (sectionsTokens sections)) ∧
      sectionsProper sections ∧ Closed (sections.map Section.tag)

def itemsProper : List Item → Prop
  | [] => True
  | item :: items => item.Proper ∧ itemsProper items

def Section.Proper : Section → Prop
  | .mk items _ => itemsProper items

def sectionsProper : List Section → Prop
  | [] => True
  | s :: sections => s.Proper ∧ sectionsProper sections

end

structure Frame.Proper (frame : Frame) : Prop where
  before : itemsProper frame.before
  opening : frame.opening.kind = .opening
  fold : ∀ f ∈ frame.fold, f.Proper
  noFold : frame.fold = none → ¬ StartsWithFold (sectionsTokens frame.sections)
  sections : sectionsProper frame.sections
  tags : ∀ s ∈ frame.sections, s.tag.continues

structure Cursor.Proper (c : Cursor) : Prop where
  frames : ∀ frame ∈ c.frames, frame.Proper
  items : itemsProper c.items

theorem itemsProper_append {items : List Item} {item : Item} :
    itemsProper (items ++ [item]) ↔ itemsProper items ∧ item.Proper := by
  induction items with
  | nil => simp [itemsProper]
  | cons i items ih => simp [itemsProper, ih, and_assoc]

theorem sectionsProper_append {sections : List Section} {s : Section} :
    sectionsProper (sections ++ [s]) ↔ sectionsProper sections ∧ s.Proper := by
  induction sections with
  | nil => simp [sectionsProper]
  | cons i sections ih => simp [sectionsProper, ih, and_assoc]

theorem StartsWithFold.of_append {tokens later : List Token} {tag : Tag}
    (h : StartsWithFold (tokens ++ .tag tag :: later)) : StartsWithFold (tokens ++ [.tag tag]) := by
  obtain ⟨⟨blank, t⟩, rest, hp, h⟩ := h
  cases tokens with
  | nil =>
    cases blank with
    | none =>
      cases h
      exact ⟨⟨none, t⟩, [], hp, rfl⟩
    | some text => cases h
  | cons token tokens =>
    cases blank with
    | none =>
      cases h
      exact ⟨⟨none, t⟩, _, hp, rfl⟩
    | some text =>
      cases tokens with
      | nil =>
        cases h
        exact ⟨⟨some text, t⟩, [], hp, rfl⟩
      | cons token' tokens =>
        cases h
        exact ⟨⟨some text, t⟩, _, hp, rfl⟩

theorem foldBlank?_isSome {items : List Item} {tag : Tag} {later : List Token}
    (h : itemsProper items) (hf : StartsWithFold (itemsTokens items ++ .tag tag :: later)) :
    (foldBlank? items).isSome := by
  match items with
  | [] => rfl
  | .plain t :: items =>
    have ht : t.kind = .plain := h.1
    have := startsWithFold_tag hf
    simp [Tag.continues, ht] at this
  | .block opening fold sections :: items =>
    have ht : opening.kind = .opening := h.1.1
    have := startsWithFold_tag hf
    simp [Tag.continues, ht] at this
  | [.text line blank] => simp [foldBlank?, (startsWithFold_text hf).1]
  | .text line blank :: .text line' blank' :: items =>
    obtain ⟨-, t, rest, -, hr⟩ := startsWithFold_text hf
    cases hr
  | .text line blank :: .plain t :: items =>
    obtain ⟨-, _, _, ht, hr⟩ := startsWithFold_text hf
    cases hr
    have hk : t.kind = .plain := h.2.1
    simp [Tag.continues, hk] at ht
  | .text line blank :: .block opening fold sections :: items =>
    obtain ⟨-, _, _, ht, hr⟩ := startsWithFold_text hf
    cases hr
    have hk : opening.kind = .opening := h.2.1.1
    simp [Tag.continues, hk] at ht

theorem not_startsWithFold_append {sections : List Section} {s : Section}
    (h : sections ≠ []) (hf : ¬ StartsWithFold (sectionsTokens sections)) :
    ¬ StartsWithFold (sectionsTokens (sections ++ [s])) := by
  cases sections with
  | nil => exact absurd rfl h
  | cons first sections =>
    obtain ⟨items, tag⟩ := first
    intro h'
    simp only [List.cons_append, sectionsTokens, Section.tokens, List.append_assoc] at h' hf
    obtain ⟨fold, rest, hp, h'⟩ := StartsWithFold.of_append h'
    refine hf ⟨fold, rest ++ sectionsTokens sections, hp, ?_⟩
    rw [← List.append_assoc, ← h', List.append_assoc, List.singleton_append, List.nil_append]

theorem continues_of_startsWithFold {items : List Item} {tag : Tag} (h : itemsProper items)
    (hf : StartsWithFold (itemsTokens items ++ [.tag tag])) : tag.continues := by
  obtain ⟨blank, hb⟩ := Option.isSome_iff_exists.1 (foldBlank?_isSome h hf)
  rw [(Cursor.foldBlank?_eq_some hb).1] at hf
  cases blank with
  | none => exact startsWithFold_tag hf
  | some text =>
    obtain ⟨-, t, rest, ht, hr⟩ := startsWithFold_text hf
    cases hr
    exact ht

theorem Frame.Proper.noFold_extend {frame : Frame} {items : List Item} {tag : Tag}
    (h : frame.Proper) (hf : frame.fold = none)
    (hn : frame.sections = [] → ¬ StartsWithFold (itemsTokens items ++ [.tag tag])) :
    ¬ StartsWithFold (sectionsTokens (frame.extend items tag).sections) := by
  by_cases hs : frame.sections = []
  · simpa [Frame.extend, hs, sectionsTokens, Section.tokens] using hn hs
  · exact not_startsWithFold_append hs (h.noFold hf)

namespace Cursor

variable {c c' : Cursor} {frame : Frame} {frames : List Frame} {items : List Item} {tag : Tag}

theorem proper_middle (hf : frame.Proper) (hfs : ∀ f ∈ frames, f.Proper) (hi : itemsProper items)
    (ht : tag.continues) : (middle frame frames items tag).Proper := by
  unfold middle
  split
  · next h₁ h₂ hb =>
    refine ⟨List.forall_mem_cons.2 ⟨⟨hf.before, hf.opening, ?_, ?_, hf.sections, hf.tags⟩, hfs⟩,
      trivial⟩
    · rintro f ⟨⟩
      exact ⟨ht, (foldBlank?_eq_some hb).2⟩
    · rintro ⟨⟩
  · next hno =>
    refine ⟨List.forall_mem_cons.2 ⟨⟨hf.before, hf.opening, hf.fold, fun h₁ => ?_, ?_, ?_⟩, hfs⟩,
      trivial⟩
    · refine hf.noFold_extend h₁ fun h₂ h => ?_
      obtain ⟨blank, hb⟩ := Option.isSome_iff_exists.1 (foldBlank?_isSome hi h)
      exact hno blank h₁ h₂ hb
    · exact sectionsProper_append.2 ⟨hf.sections, hi⟩
    · intro s hs
      obtain hs | hs := List.mem_append.1 hs
      · exact hf.tags s hs
      · cases List.mem_singleton.1 hs
        exact ht

theorem proper_block (hf : frame.Proper) (hi : itemsProper items) (ht : tag.closes) :
    (frame.extend items tag).block.Proper := by
  refine ⟨hf.opening, hf.fold, fun h₁ => ?_, sectionsProper_append.2 ⟨hf.sections, hi⟩,
    frame.sections.map Section.tag, tag, by simp [Frame.extend, Section.tag], ?_, ht⟩
  · refine hf.noFold_extend h₁ fun _ h => ?_
    have := continues_of_startsWithFold hi h
    simp [Tag.continues, ht.1] at this
  · intro t h
    obtain ⟨s, hs, rfl⟩ := List.mem_map.1 h
    exact hf.tags s hs

theorem proper_next {token : Token} (hc : c.Proper) (h : c.next token = some c') : c'.Proper := by
  obtain ⟨frames, items⟩ := c
  obtain ⟨hfs, hi⟩ := hc
  cases token with
  | text line content =>
    cases h
    exact ⟨hfs, itemsProper_append.2 ⟨hi, trivial⟩⟩
  | tag tag =>
    simp only [next] at h
    split at h
    · next hk =>
      cases h
      exact ⟨hfs, itemsProper_append.2 ⟨hi, hk⟩⟩
    · next hk =>
      cases h
      refine ⟨List.forall_mem_cons.2 ⟨⟨hi, hk, by simp, fun _ => ?_, trivial, by simp⟩, hfs⟩,
        trivial⟩
      -- No fold is behind the opening tag yet, for nothing is.
      rintro ⟨⟨_ | _, _⟩, _, _, h⟩ <;> cases h
    · next hk =>
      split at h
      · next hm =>
        cases h
        obtain ⟨hf, hfs⟩ := List.forall_mem_cons.1 hfs
        exact proper_middle hf hfs hi (by simp [Tag.continues, hk, hm])
      · cases h
    · next hk =>
      split at h
      · next hm =>
        cases h
        obtain ⟨hf, hfs⟩ := List.forall_mem_cons.1 hfs
        exact ⟨hfs, itemsProper_append.2 ⟨hf.before, proper_block hf hi ⟨hk, hm⟩⟩⟩
      · cases h
    · cases h

theorem proper_after {tokens : List Token} (hc : c.Proper) (h : c.after tokens = some c') :
    c'.Proper := by
  induction tokens generalizing c with
  | nil =>
    cases h
    exact hc
  | cons token tokens ih =>
    rw [after, Option.bind_eq_some_iff] at h
    obtain ⟨c₁, hn, ha⟩ := h
    exact ih (proper_next hc hn) ha

theorem proper_start : ({} : Cursor).Proper := ⟨by simp, trivial⟩

end Cursor

theorem itemsProper_of_outline? {tokens : List Token} {items : List Item}
    (h : outline? tokens = some items) : itemsProper items := by
  unfold outline? at h
  split at h
  · next ha =>
    cases h
    exact (Cursor.proper_after Cursor.proper_start ha).items
  · cases h

theorem Cursor.after_fold {fold : Fold} {tag : Tag} (hp : fold.Proper) (before : List Item)
    (frames : List Frame) :
    Cursor.after ⟨⟨before, tag, none, []⟩ :: frames, []⟩ fold.tokens =
      some ⟨⟨before, tag, some fold, []⟩ :: frames, []⟩ := by
  obtain ⟨blank, t⟩ := fold
  obtain ⟨hk, hm⟩ : t.kind = .middle ∧ t.marker.isEmpty := by
    simpa [Tag.continues] using hp.1
  cases blank with
  | none =>
    simp [Fold.tokens, Cursor.after, Cursor.next, hk, hm, Cursor.middle, foldBlank?]
  | some text =>
    have hb : ∀ x ∈ text.2.toList, Text.isGap x := by simpa using hp.2 text rfl
    simp only [Fold.tokens, Option.map_some, Option.toList_some, List.singleton_append,
      Cursor.after, Cursor.next, Cursor.add, List.nil_append, Option.bind_some, hk, hm, if_true,
      Cursor.middle, foldBlank?, List.all_eq_true.2 hb]

theorem Cursor.after_continues {frame : Frame} {frames : List Frame} {items : List Item} {tag : Tag}
    (ht : tag.continues)
    (hn : frame.fold = none → frame.sections = [] →
      ¬ StartsWithFold (itemsTokens items ++ [.tag tag])) :
    Cursor.next ⟨frame :: frames, items⟩ (.tag tag) =
      some ⟨frame.extend items tag :: frames, []⟩ := by
  obtain ⟨hk, hm⟩ : tag.kind = .middle ∧ tag.marker.isEmpty := by simpa [Tag.continues] using ht
  simp only [Cursor.next, hk, hm, if_true, Option.some.injEq]
  unfold Cursor.middle
  split
  · next blank h₁ h₂ hb =>
    obtain ⟨hi, hb⟩ := foldBlank?_eq_some hb
    exact absurd ⟨⟨blank, tag⟩, [], ⟨ht, hb⟩, by rw [hi]; simp [Fold.tokens]⟩ (hn h₁ h₂)
  · rfl

theorem Cursor.after_closes {frame : Frame} {frames : List Frame} {items : List Item} {tag : Tag}
    (ht : tag.closes) : Cursor.next ⟨frame :: frames, items⟩ (.tag tag) =
      some ⟨frames, frame.before ++ [(frame.extend items tag).block]⟩ := by
  simp only [Cursor.next, ht.1, ht.2, if_true]

mutual

theorem Cursor.after_item (item : Item) (h : item.Proper) (c : Cursor) (more : List Token) :
    c.after (item.tokens ++ more) = (c.add item).after more := by
  cases item with
  | text line content => rfl
  | plain tag =>
    have hk : tag.kind = .plain := h
    simp [Item.tokens, Cursor.after, Cursor.next, hk]
  | block opening fold sections =>
    obtain ⟨hk, hf, hn, hs, hc⟩ := h
    have hopen (tokens : List Token) : c.after (.tag opening :: tokens) =
        Cursor.after ⟨⟨c.items, opening, none, []⟩ :: c.frames, []⟩ tokens := by
      simp only [Cursor.after, Cursor.next, hk, Option.bind_some]
    rw [Item.tokens, List.cons_append, List.cons_append, List.append_assoc, hopen]
    cases fold with
    | none =>
      exact Cursor.after_sections sections hs hc ⟨c.items, opening, none, []⟩ c.frames more
        fun _ _ => hn rfl
    | some fold =>
      rw [Option.elim_some, Cursor.after_append, Cursor.after_fold (hf fold rfl), Option.bind_some]
      exact Cursor.after_sections sections hs hc ⟨c.items, opening, some fold, []⟩ c.frames more
        fun h => nomatch h

theorem Cursor.after_items (items : List Item) (h : itemsProper items) (c : Cursor)
    (more : List Token) :
    c.after (itemsTokens items ++ more) = Cursor.after ⟨c.frames, c.items ++ items⟩ more := by
  cases items with
  | nil => simp [itemsTokens]
  | cons item items =>
    rw [itemsTokens, List.append_assoc, Cursor.after_item item h.1,
      Cursor.after_items items h.2, Cursor.add, List.append_assoc, List.singleton_append]

theorem Cursor.after_section (s : Section) (h : s.Proper) (frames : List Frame)
    (more : List Token) : Cursor.after ⟨frames, []⟩ (s.tokens ++ more) =
      Cursor.after ⟨frames, s.items⟩ (.tag s.tag :: more) := by
  cases s with
  | mk items tag =>
    rw [Section.tokens, List.append_assoc, Cursor.after_items items h]
    rfl

theorem Cursor.after_sections (sections : List Section) (h : sectionsProper sections)
    (hc : Closed (sections.map Section.tag)) (frame : Frame) (frames : List Frame)
    (more : List Token)
    (hn : frame.fold = none → frame.sections = [] → ¬ StartsWithFold (sectionsTokens sections)) :
    Cursor.after ⟨frame :: frames, []⟩ (sectionsTokens sections ++ more) =
      Cursor.after ⟨frames, frame.before ++
        [.block frame.opening frame.fold (frame.sections ++ sections)]⟩ more := by
  cases sections with
  | nil => exact absurd hc not_closed_nil
  | cons s sections =>
    rw [sectionsTokens, List.append_assoc, Cursor.after_section s h.1]
    obtain ⟨hs, ht⟩ | ⟨ht, hc⟩ := closed_cons.1 hc
    · rw [List.map_eq_nil_iff.1 hs, Cursor.after, Cursor.after_closes ht, Option.bind_some]
      simp only [Frame.extend, Frame.block, s.mk_items_tag, sectionsTokens, List.nil_append]
    · rw [Cursor.after, Cursor.after_continues ht, Option.bind_some,
        Cursor.after_sections sections h.2 hc]
      · simp [Frame.extend, s.mk_items_tag]
      · intro _ hs
        simp [Frame.extend] at hs
      · intro h₁ h₂ hf
        obtain ⟨fold, rest, hp, hr⟩ := hf
        refine hn h₁ h₂ ⟨fold, rest ++ sectionsTokens sections, hp, ?_⟩
        rw [sectionsTokens, ← List.append_assoc, ← hr, ← s.mk_items_tag]
        rfl

end

/-- An outline groups tokens if it has these tokens and its tags play their parts. -/
theorem outline?_eq_some {tokens : List Token} {items : List Item} :
    outline? tokens = some items ↔ itemsTokens items = tokens ∧ itemsProper items := by
  refine ⟨fun h => ⟨itemsTokens_of_outline? h, itemsProper_of_outline? h⟩, ?_⟩
  rintro ⟨rfl, h⟩
  have := Cursor.after_items items h {} []
  rw [List.append_nil] at this
  rw [outline?, this]
  rfl

end EmbeddedTemplate.Template
