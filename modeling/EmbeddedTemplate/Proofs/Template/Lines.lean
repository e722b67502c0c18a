import EmbeddedTemplate.Proofs.Code.Lexing
import EmbeddedTemplate.Proofs.Code.Lines
import EmbeddedTemplate.Proofs.Template.Blocks

/-!
The lines of the code of a block. When the code of the tags of a block is put together, each tag's
code should stay on the line that the tag has in the template; this is so exactly if the code in
front of a section has no line break of its own, and no line is lost in front of a fold.
-/

namespace EmbeddedTemplate

namespace Template

theorem le_lineAfter (line : Int) (c : Char) : line ≤ Code.Lexed.lineAfter line c := by
  unfold Code.Lexed.lineAfter
  split <;> omega

def Piece.tagLines (pieces : List Piece) : List Int :=
  pieces.filterMap fun piece =>
    match piece with
    | .tag line _ _ => some line
    | _ => none

namespace Piece

@[simp] theorem tagLines_text (line : Int) (cs : List Char) (ps : List Piece) :
    tagLines (.text line cs :: ps) = tagLines ps := rfl

@[simp] theorem tagLines_quotation (line : Int) (cs : List Char) (ps : List Piece) :
    tagLines (.quotation line cs :: ps) = tagLines ps := rfl

@[simp] theorem tagLines_tag (line : Int) (marker : Option Char) (code : List Char)
    (ps : List Piece) : tagLines (.tag line marker code :: ps) = line :: tagLines ps := rfl

theorem tagLines_consText (line : Int) (c : Char) (ps : List Piece) :
    tagLines (consText line c ps) = tagLines ps := by
  unfold consText
  split <;> rfl

theorem tagLines_trim (blank alone : Bool) (ps : List Piece) :
    tagLines (trim blank alone ps) = tagLines ps := by
  fun_induction trim <;> simp_all

theorem line_of_read {line l : Int} {marker : Option Char} {code cs : List Char} {n : Nat}
    (h : read line cs = some (.tag l marker code, n)) : l = line := by
  unfold read at h
  split at h
  · simp at h
  · simp at h
  · split at h <;> simp at h <;> grind
  · cases h

theorem pairwise_of_le {line l : Int} {ls : List Int} (h : (l :: ls).Pairwise (· ≤ ·))
    (hl : line ≤ l) : (line :: ls).Pairwise (· ≤ ·) := by
  obtain ⟨h, hls⟩ := List.pairwise_cons.1 h
  exact List.pairwise_cons.2 ⟨fun m hm => Int.le_trans hl (h m hm), hls⟩

theorem tagLines_scan (taken : Nat) (line : Int) (cs : List Char) :
    (line :: tagLines (scan taken line cs).pieces).Pairwise (· ≤ ·) := by
  fun_induction scan with
  | case1 | case3 => simp [tagLines]
  | case2 taken line c cs ih => exact pairwise_of_le ih (le_lineAfter line c)
  | case4 line cs piece n hr rest ih =>
    cases piece with
    | text | quotation => exact ih
    | tag l marker code =>
      obtain rfl := line_of_read hr
      exact List.pairwise_cons.2
        ⟨List.forall_mem_cons.2 ⟨Int.le_refl _, (List.pairwise_cons.1 ih).1⟩, ih⟩
  | case5 line c cs _ rest ih =>
    rw [tagLines_consText]
    exact pairwise_of_le ih (le_lineAfter line c)

end Piece

@[simp] theorem tagsOf_toTokens (pending : Pending) (tokens : List Token) :
    tagsOf (pending.toTokens ++ tokens) = tagsOf tokens := by
  unfold Pending.toTokens
  split <;> rfl

theorem line_of_ofCode {line : Int} {marker code : String} {tag : Tag}
    (h : Tag.ofCode line marker code = .ok tag) : tag.line = line := by
  unfold Tag.ofCode at h
  dsimp only at h
  split at h <;> cases h
  rfl

theorem lines_sublist_tagLines (pending : Pending) {pieces : List Piece} {tokens : List Token}
    (h : Token.ofPieces pending pieces = .ok tokens) :
    ((tagsOf tokens).map Tag.line).Sublist (Piece.tagLines pieces) := by
  induction pieces generalizing pending tokens with
  | nil =>
    cases h
    rw [← List.append_nil pending.toTokens, tagsOf_toTokens]
    exact .slnil
  | cons piece pieces ih =>
    cases piece with
    | text line cs => exact ih (pending.add line cs) h
    | quotation line cs => exact ih (pending.add line ('<' :: '%' :: cs ++ ['%', '>'])) h
    | tag line marker code =>
      rw [Token.ofPieces] at h
      split at h
      · exact (ih pending h).cons _
      · obtain ⟨tag, ht, h⟩ := bind_eq_ok.1 h
        obtain ⟨rest, hr, h⟩ := bind_eq_ok.1 h
        cases h
        rw [tagsOf_toTokens, tagsOf_tag, List.map_cons, line_of_ofCode ht]
        exact (ih .empty hr).cons_cons _

theorem tokenize_lines {source : String} {line : Int} {trim : Bool} {tokens : List Token}
    (h : tokenize source line trim = .ok tokens) :
    ((tagsOf tokens).map Tag.line).Pairwise (· ≤ ·) := by
  unfold tokenize at h
  obtain ⟨ts, ht, h⟩ := bind_eq_ok.1 h
  split at h <;> cases h
  refine List.Pairwise.sublist (lines_sublist_tagLines .empty ht) ?_
  have hs := Piece.tagLines_scan 0 line source.toList
  split
  · rw [Piece.tagLines_trim]
    exact (List.pairwise_cons.1 hs).2
  · exact (List.pairwise_cons.1 hs).2

theorem lastLine_breaks (line l : Int) (tag : Tag) :
    Code.lastLine (Spine.breaks l tag) line = line + (tag.line - l).toNat := by
  simp [Code.lastLine, Spine.breaks]

theorem toList_placeholder (key : Nat) : (placeholder key).toList =
    ' ' :: "__EEX__".toList ++ '(' :: Nat.toDigits 10 key ++ [')', ';'] := by
  have : toString (key : Int) = key.repr := rfl
  simp [placeholder, reservedName, this]

theorem not_mem_placeholder (key : Nat) : '\n' ∉ (placeholder key).toList := by
  rw [toList_placeholder]
  intro h
  have : '\n' ∈ Nat.toDigits 10 key := by simpa using h
  have := Nat.isDigit_of_mem_toDigits (by decide) (by decide) this
  contradiction

theorem lastLine_placeholder (key : Nat) (line : Int) :
    Code.lastLine (placeholder key) line = line :=
  Code.lastLine_eq_self.2 (not_mem_placeholder key)

namespace Spine

def lead (spine : Spine) : Tag := spine.fold.elim spine.opening Fold.tag

def followed (spine : Spine) : List Tag := (spine.lead :: spine.later).dropLast

def placedFrom (before : String) (key : Nat) (line : Int) : List Tag → List (String × Tag)
  | [] => []
  | tag :: tags =>
    let start := before ++ placeholder key ++ breaks line tag
    (start, tag) :: placedFrom (start ++ tag.code) (key + 1) tag.line tags

def placed (spine : Spine) : List (String × Tag) :=
  ("", spine.opening) ::
    (spine.fold.map fun fold =>
      (spine.opening.code ++ fold.blank.elim "" (·.2), fold.tag)).toList ++
    placedFrom spine.head 0 spine.headLine spine.later

/-- In the code of the whole block, the code of each tag starts on the line of the tag. -/
def Faithful (spine : Spine) : Prop :=
  ∀ place ∈ spine.placed, Code.lastLine place.1 spine.opening.line = place.2.line

/--
As many lines lie between an opening tag and its fold as the code in front of the fold has, and no
code in front of a section goes over more than one line.
-/
structure Aligned (spine : Spine) : Prop where
  fold : ∀ fold ∈ spine.fold, Code.lastLine (spine.opening.code ++ fold.blank.elim "" (·.2))
    spine.opening.line = fold.tag.line
  code : ∀ tag ∈ spine.followed, '\n' ∉ tag.code.toList

instance (spine : Spine) : Decidable spine.Faithful :=
  inferInstanceAs (Decidable (∀ place ∈ spine.placed, _))

variable {spine : Spine} {place : String × Tag} {before : String} {line start : Int} {key : Nat}
variable {tag : Tag} {tags : List Tag}

theorem map_placedFrom : (placedFrom before key line tags).map (·.2) = tags := by
  induction tags generalizing before key line with
  | nil => rfl
  | cons tag tags ih => rw [placedFrom, List.map_cons, ih]

theorem map_placed (spine : Spine) : spine.placed.map (·.2) = spine.tags := by
  obtain ⟨opening, _ | fold, later⟩ := spine <;> simp [placed, tags, map_placedFrom]

theorem prefix_of_placedFrom (h : place ∈ placedFrom before key line tags) :
    ∃ rest, before ++ tail key line tags = place.1 ++ place.2.code ++ rest := by
  induction tags generalizing before key line with
  | nil => cases h
  | cons tag tags ih =>
    rw [placedFrom] at h
    obtain rfl | h := List.mem_cons.1 h
    · exact ⟨tail (key + 1) tag.line tags, by simp only [tail, String.append_assoc]⟩
    · obtain ⟨rest, hr⟩ := ih h
      exact ⟨rest, by rw [← hr]; simp only [tail, String.append_assoc]⟩

theorem prefix_of_placed (h : place ∈ spine.placed) :
    ∃ rest, spine.source = place.1 ++ place.2.code ++ rest := by
  obtain ⟨opening, fold, later⟩ := spine
  obtain h | h := List.mem_append.1 h
  · obtain rfl | h := List.mem_cons.1 h
    · refine ⟨fold.elim "" Fold.code ++ tail 0 (headLine ⟨opening, fold, later⟩) later, ?_⟩
      simp only [source, head, String.empty_append, String.append_assoc]
    · cases fold with
      | none => cases h
      | some fold =>
        cases List.mem_singleton.1 h
        refine ⟨tail 0 fold.tag.line later, ?_⟩
        simp only [source, head, headLine, Fold.code, Option.elim_some, String.append_assoc]
  · exact prefix_of_placedFrom h

theorem faithful_placedFrom (before : String) (key : Nat) (start : Int)
    (hl : (line :: (tag :: tags).map Tag.line).Pairwise (· ≤ ·)) :
    (∀ place ∈ placedFrom before key line (tag :: tags),
      Code.lastLine place.1 start = place.2.line) ↔
    Code.lastLine before start = line ∧
      ∀ t ∈ (tag :: tags).dropLast, '\n' ∉ t.code.toList := by
  induction tags generalizing before key line tag with
  | nil =>
    have hle : line ≤ tag.line := (List.pairwise_cons.1 hl).1 _ (by simp)
    simp only [placedFrom, List.mem_singleton, forall_eq, Code.lastLine_append,
      lastLine_placeholder, lastLine_breaks, List.dropLast_singleton, List.not_mem_nil,
      false_imp_iff, implies_true, and_true]
    omega
  | cons t tags ih =>
    have hle : line ≤ tag.line := (List.pairwise_cons.1 hl).1 _ (by simp)
    have hstart : Code.lastLine (before ++ placeholder key ++ breaks line tag) start = tag.line ↔
        Code.lastLine before start = line := by
      rw [Code.lastLine_append, Code.lastLine_append, lastLine_placeholder, lastLine_breaks]
      omega
    rw [placedFrom, List.forall_mem_cons, ih _ _ (List.pairwise_cons.1 hl).2, hstart,
      Code.lastLine_append, List.dropLast_cons_cons, List.forall_mem_cons]
    refine and_congr_right fun h => and_congr_left fun _ => ?_
    rw [hstart.2 h, Code.lastLine_eq_self]

theorem faithful_iff_aligned (hp : spine.Proper)
    (hl : (spine.tags.map Tag.line).Pairwise (· ≤ ·)) : spine.Faithful ↔ spine.Aligned := by
  obtain ⟨opening, fold, later⟩ := spine
  obtain ⟨init, last, hlater, -⟩ := hp.later
  obtain ⟨tag, tags, rfl⟩ : ∃ tag tags, later = tag :: tags := by
    cases init <;> exact ⟨_, _, hlater⟩
  -- The first section follows the fold, if there is one, and otherwise the opening tag.
  cases fold with
  | none =>
    have hrest := faithful_placedFrom opening.code 0 opening.line hl
    have hhead : head ⟨opening, none, tag :: tags⟩ = opening.code := String.append_empty
    rw [Faithful, placed, Option.map_none, Option.toList_none, List.singleton_append,
      List.forall_mem_cons, hhead]
    refine (and_congr_right fun _ => hrest).trans ⟨?_, ?_⟩
    · rintro ⟨-, h₁, h₂⟩
      refine ⟨by simp, List.forall_mem_cons.2 ⟨Code.lastLine_eq_self.1 h₁, h₂⟩⟩
    · rintro ⟨-, h⟩
      obtain ⟨h₁, h₂⟩ := List.forall_mem_cons.1 h
      exact ⟨by simp [Code.lastLine], Code.lastLine_eq_self.2 h₁, h₂⟩
  | some fold =>
    have hrest := faithful_placedFrom (head ⟨opening, some fold, tag :: tags⟩) 0 opening.line
      (List.pairwise_cons.1 hl).2
    have hhead : Code.lastLine (head ⟨opening, some fold, tag :: tags⟩) opening.line =
        Code.lastLine fold.tag.code
          (Code.lastLine (opening.code ++ fold.blank.elim "" (·.2)) opening.line) := by
      rw [← Code.lastLine_append]
      simp only [head, Fold.code, Option.elim_some, String.append_assoc]
    rw [Faithful, placed, Option.map_some, Option.toList_some, List.cons_append,
      List.singleton_append, List.forall_mem_cons, List.forall_mem_cons]
    refine (and_congr_right fun _ => and_congr_right fun _ => hrest).trans ?_
    rw [hhead]
    constructor
    · rintro ⟨-, h₁, h₂, h₃⟩
      rw [h₁] at h₂
      exact ⟨by simpa using h₁, List.forall_mem_cons.2 ⟨Code.lastLine_eq_self.1 h₂, h₃⟩⟩
    · rintro ⟨h₁, h⟩
      obtain ⟨h₂, h₃⟩ := List.forall_mem_cons.1 h
      have h₁ := h₁ fold rfl
      refine ⟨by simp [Code.lastLine], h₁, ?_, h₃⟩
      rw [h₁]
      exact Code.lastLine_eq_self.2 h₂

end Spine

theorem isCodeBlank_of_isGap {c : Char} (h : Text.isGap c) : Code.isCodeBlank c := by
  unfold Text.isGap at h
  unfold Code.isCodeBlank
  grind

theorem append_eq_append_cons {xs ys before rest : List Char} {c : Char}
    (h : xs ++ ys = before ++ c :: rest) :
    (∃ more, xs = before ++ c :: more) ∨ ∃ d, before = xs ++ d ∧ ys = d ++ c :: rest := by
  obtain ⟨d, hb, hy⟩ | ⟨d, hx, hr⟩ := List.append_eq_append_iff.1 h
  · exact .inr ⟨d, hb, hy⟩
  · cases d with
    | nil => exact .inr ⟨[], by simpa using hx.symm, by simpa using hr.symm⟩
    | cons e d =>
      obtain ⟨rfl, -⟩ := List.cons.inj hr
      exact .inl ⟨d, hx⟩

namespace Spine

/--
A character of the code of a block, with all code in front of it, is in the code of a tag behind
`part`, or in the placeholder behind all of that code.
-/
inductive Meets (spine : Spine) (before : List Char) (c : Char) : Tag → List Char → Prop
  | code {start tag part more} : (start, tag) ∈ spine.placed →
      before = start.toList ++ part → tag.code.toList = part ++ c :: more →
      Meets spine before c tag part
  | placeholder {start tag part} {key : Nat} : (start, tag) ∈ spine.placed →
      before = start.toList ++ tag.code.toList ++ part → part <+: (placeholder key).toList →
      Meets spine before c tag tag.code.toList

variable {spine : Spine} {before rest : List Char} {c : Char}

theorem meets_tail {line : Int} {key : Nat} {tags : List Tag} (start : String) (tag : Tag)
    (hs : (start, tag) ∈ spine.placed)
    (hp : ∀ place ∈ placedFrom (start ++ tag.code) key line tags, place ∈ spine.placed)
    (h : (tail key line tags).toList = before ++ c :: rest) (hc : Code.isCodeBlank c = false) :
    ∃ t part, spine.Meets (start.toList ++ tag.code.toList ++ before) c t part := by
  induction tags generalizing start tag key line before with
  | nil => simp [tail] at h
  | cons t tags ih =>
    simp only [tail, String.toList_append, List.append_assoc] at h
    obtain ⟨more, h₁⟩ | ⟨d₁, rfl, h₁⟩ := append_eq_append_cons h
    · exact ⟨_, _, .placeholder hs rfl ⟨_, h₁.symm⟩⟩
    obtain ⟨more, h₂⟩ | ⟨d₂, rfl, h₂⟩ := append_eq_append_cons h₁
    · have : c ∈ (breaks line t).toList := by simp [h₂]
      obtain rfl : c = '\n' := by
        simp only [breaks, String.toList_ofList] at this
        exact List.eq_of_mem_replicate this
      cases hc
    have hmem := hp _ (by rw [placedFrom]; exact List.mem_cons_self ..)
    obtain ⟨more, h₃⟩ | ⟨d₃, rfl, h₃⟩ := append_eq_append_cons h₂
    · refine ⟨t, d₂, .code hmem ?_ h₃⟩
      simp only [String.toList_append, List.append_assoc]
    · have hlater : ∀ place ∈ placedFrom (start ++ tag.code ++ Template.placeholder key ++
          breaks line t ++ t.code) (key + 1) t.line tags, place ∈ spine.placed :=
        fun place hm => hp place (by rw [placedFrom]; exact List.mem_cons_of_mem _ hm)
      have := ih _ t hmem hlater h₃
      simpa only [String.toList_append, List.append_assoc] using this

theorem meets_source (hp : spine.Proper) (h : spine.source.toList = before ++ c :: rest)
    (hc : Code.isCodeBlank c = false) : ∃ tag part, spine.Meets before c tag part := by
  obtain ⟨opening, fold, later⟩ := spine
  have hopening : ("", opening) ∈ placed ⟨opening, fold, later⟩ := List.mem_cons_self ..
  cases fold with
  | none =>
    have hsource : source ⟨opening, none, later⟩ = opening.code ++ tail 0 opening.line later := by
      simp [source, head, headLine]
    rw [hsource, String.toList_append] at h
    obtain ⟨more, h₁⟩ | ⟨d, rfl, h₁⟩ := append_eq_append_cons h
    · exact ⟨_, _, .code hopening rfl h₁⟩
    · refine meets_tail "" opening hopening (fun place hm => ?_) h₁ hc
      refine List.mem_append_right _ ?_
      simpa [head, headLine] using hm
  | some fold =>
    have hsource : source ⟨opening, some fold, later⟩ = opening.code ++
        (fold.blank.elim "" (·.2) ++ (fold.tag.code ++ tail 0 fold.tag.line later)) := by
      simp [source, head, headLine, Fold.code, String.append_assoc]
    have hfold : (opening.code ++ fold.blank.elim "" (·.2), fold.tag) ∈
        placed ⟨opening, some fold, later⟩ :=
      List.mem_cons_of_mem _ (List.mem_cons_self ..)
    rw [hsource, String.toList_append, String.toList_append, String.toList_append] at h
    -- In the opening tag, in the blank text, in the fold, or behind them.
    obtain ⟨more, h₁⟩ | ⟨d₁, rfl, h₁⟩ := append_eq_append_cons h
    · exact ⟨_, _, .code hopening rfl h₁⟩
    obtain ⟨more, h₂⟩ | ⟨d₂, rfl, h₂⟩ := append_eq_append_cons h₁
    · have hgap : Text.isGap c := by
        obtain ⟨_ | ⟨line, blank⟩, t⟩ := fold
        · simp at h₂
        · have := (hp.fold _ rfl).2 (line, blank) rfl
          rw [List.all_eq_true] at this
          refine this c ?_
          simp only [Option.elim_some] at h₂
          simp [h₂]
      rw [isCodeBlank_of_isGap hgap] at hc
      cases hc
    obtain ⟨more, h₃⟩ | ⟨d₃, rfl, h₃⟩ := append_eq_append_cons h₂
    · refine ⟨_, _, .code hfold ?_ h₃⟩
      simp only [String.toList_append, List.append_assoc]
    · have := meets_tail _ fold.tag hfold (fun place hm => ?_) h₃ hc
      · simpa only [String.toList_append, List.append_assoc] using this
      · refine List.mem_append_right _ ?_
        simpa [head, headLine, Fold.code, String.append_assoc] using hm

theorem lineBehind_placeholder {key : Nat} {part : List Char} {line : Int}
    (h : part <+: (Template.placeholder key).toList) : Code.Lexed.lineBehind line part = line := by
  have : part.count '\n' = 0 :=
    List.count_eq_zero.2 fun hm => not_mem_placeholder key (h.subset hm)
  simp [Code.Lexed.lineBehind, this]

theorem Meets.line {tag : Tag} {part : List Char} (hf : spine.Faithful)
    (h : spine.Meets before c tag part) :
    Code.Lexed.lineBehind spine.opening.line before = Code.Lexed.lineBehind tag.line part := by
  cases h with
  | code hm hb _ =>
    rw [hb, Code.Lexed.lineBehind_append, Code.Lexed.lineBehind_toList, hf _ hm]
  | placeholder hm hb hk =>
    rw [hb, Code.Lexed.lineBehind_append, Code.Lexed.lineBehind_append, lineBehind_placeholder hk]
    congr 1
    exact hf _ hm

/--
The token starts in the code of a tag of the block and is on the line that this code has in the
template. The first token of a placeholder counts as the end of the code in front of it.
-/
def KeepsLine (spine : Spine) (token : Code.Token) : Prop :=
  ∃ before c rest tag part, spine.source.toList = before ++ c :: rest ∧
    token.text.toList <+: c :: rest ∧ spine.Meets before c tag part ∧
    token.line = Code.Lexed.lineBehind tag.line part

theorem Faithful.keepsLine {token : Code.Token} (hf : spine.Faithful) (hp : spine.Proper)
    (h : token ∈ (Code.Lexed.ofCode spine.source spine.opening.line).tokens) :
    spine.KeepsLine token := by
  obtain ⟨l, hl, ht⟩ := List.mem_filterMap.1 h
  obtain ⟨before, c, rest, n, hs, hk, htext, hline⟩ := Code.Lexed.mem_scan hl
  have hkind : l.kind ≠ .blank ∧ token.text = l.text ∧ token.line = l.line := by
    unfold Code.Lexeme.token? at ht
    split at ht
    · next hk => cases ht; simp [hk]
    · next hk => cases ht; simp [hk]
    · cases ht
  obtain ⟨hkind, htext', hline'⟩ := hkind
  have hc : Code.isCodeBlank c = false := by
    rw [Bool.eq_false_iff]
    intro hc
    rw [Code.Lexeme.first?_blank hc, Option.some.injEq, Prod.mk.injEq] at hk
    exact hkind hk.1.symm
  obtain ⟨tag, part, hm⟩ := meets_source hp hs hc
  refine ⟨before, c, rest, tag, part, hs, ?_, hm, ?_⟩
  · rw [htext', htext, String.toList_ofList]
    exact List.cons_prefix_cons.2 ⟨rfl, List.take_prefix ..⟩
  · rw [hline', hline, hm.line hf]

end Spine

variable {engine : Engine} {options : Options} {source : String} {tokens : List Token}
variable {spine : Spine} {closed : OpenBlock}

/--
In the code of a block that is put together again, the code of every tag starts on the line of the
tag exactly if the block is aligned. Every line in the tree of an aligned block, and the line of a
token that is complained about, is then that of a token which is still on its line.
-/
theorem faithful_iff [CharacterNames] (ht : tokenize source options.line options.trim = .ok tokens)
    (h : engine.Closes options tokens spine closed) :
    (spine.Faithful ↔ spine.Aligned) ∧
    (spine.Aligned →
      (∀ tree, parseCode options.file closed.source closed.opening.line = .ok tree →
        ∀ l ∈ tree.lines,
          ∃ token ∈ (Code.Lexed.ofCode closed.source closed.opening.line).tokens,
            token.line = l ∧ spine.KeepsLine token) ∧
      ∀ fault text l, parseCode options.file closed.source closed.opening.line =
        .error (.source fault) → fault.cause = .before text → fault.line = some l →
        ∃ token ∈ (Code.Lexed.ofCode closed.source closed.opening.line).tokens,
          token.text = text ∧ token.line = l ∧ spine.KeepsLine token) := by
  have hiff := Spine.faithful_iff_aligned h.proper
    (List.Pairwise.sublist (h.tags_sublist.map _) (tokenize_lines ht))
  obtain ⟨hs, ho, -⟩ := h.follows
  refine ⟨hiff, fun ha => ?_⟩
  have hf := hiff.2 ha
  rw [hs, ho]
  constructor
  · intro tree hp l hl
    obtain ⟨token, htoken, rfl⟩ := Code.lines_of_parse (parseCode_eq_ok.1 hp) l hl
    exact ⟨token, htoken, rfl, hf.keepsLine h.proper htoken⟩
  · intro fault text l hp hc hl
    unfold parseCode at hp
    cases hparse : Code.parse spine.source spine.opening.line with
    | ok t =>
      rw [hparse] at hp
      cases hp
    | error e =>
      obtain ⟨cause, line⟩ := e
      rw [hparse] at hp
      cases hp
      cases hc
      cases hl
      obtain ⟨token, htoken, rfl, rfl⟩ := Code.token_of_parse hparse
      exact ⟨token, htoken, rfl, rfl, hf.keepsLine h.proper htoken⟩

theorem faithful_of_fold :
    let opening : Tag := ⟨.opening, 1, "=", " case x\n do "⟩
    let fold : Fold := ⟨some (2, "\n"), ⟨.middle, 3, "", " 1 -> "⟩⟩
    let closing : Tag := ⟨.closing, 3, "", " end "⟩
    let spine : Spine := ⟨opening, some fold, [closing]⟩
    let clause : Tree := .named "->" [.list [.int 1], .named "__EEX__" [.int 0] ⟨some 3, none⟩]
      ⟨some 3, none⟩
    let tree : Tree := .named "case" [.var "x" ⟨some 1, none⟩,
      .list [.pair (.atom "do") (.list [clause])]] ⟨some 1, none⟩
    ∃ tokens closed,
      tokenize "<%= case x\n do %>\n<% 1 -> %>A<% end %>" 1 false = .ok tokens ∧
      Engine.smart.Closes {} tokens spine closed ∧ spine.Faithful ∧
      parseCode "nofile" closed.source closed.opening.line = .ok tree ∧
      ∀ l ∈ tree.lines, ∃ token ∈ (Code.Lexed.ofCode closed.source closed.opening.line).tokens,
        token.line = l ∧ spine.KeepsLine token := by
  intro opening fold closing spine clause tree
  have ht : tokenize "<%= case x\n do %>\n<% 1 -> %>A<% end %>" 1 false =
      .ok ([.tag opening] ++ fold.tokens ++ [.text 3 "A"] ++ .tag closing :: []) := by
    decide +kernel
  obtain ⟨closed, h⟩ := Engine.exists_closes Engine.smart {}
    ([.tag opening] ++ fold.tokens ++ [.text 3 "A"]) closing [] ⟨[], opening, some fold, []⟩ []
    [.text 3 "A"] (by decide +kernel) (by simp [Tag.closes, closing]) (by decide +kernel) rfl
  have ha : spine.Aligned := by
    refine ⟨?_, by decide +kernel⟩
    rintro _ ⟨⟩
    decide +kernel
  obtain ⟨hiff, hlines⟩ := faithful_iff ht h
  have hp : parseCode "nofile" closed.source closed.opening.line = .ok tree := by
    rw [h.follows.1, h.follows.2.1]
    decide +kernel
  exact ⟨_, closed, ht, h, hiff.2 ha, hp, (hlines ha).1 tree hp⟩

/-- A line break in the code in front of a section counts twice: a fault is reported too low. -/
theorem not_faithful_of_break :
    let opening : Tag := ⟨.opening, 1, "=", " if\n a do "⟩
    let closing : Tag := ⟨.closing, 2, "", " end ) "⟩
    ∃ tokens closed, tokenize "<%= if\n a do %>x<% end ) %>" 1 false = .ok tokens ∧
      Engine.smart.Closes {} tokens ⟨opening, none, [closing]⟩ closed ∧
      ¬ Spine.Faithful ⟨opening, none, [closing]⟩ ∧
      compile Engine.smart {} "<%= if\n a do %>x<% end ) %>" = .error (.source
        { scope := .expression, cause := .before ")", file := some "nofile", line := some 3 }) := by
  intro opening closing
  obtain ⟨closed, h⟩ := Engine.exists_closes Engine.smart {} [.tag opening, .text 2 "x"] closing []
    ⟨[], opening, none, []⟩ [] [.text 2 "x"] (by decide +kernel) (by simp [Tag.closes, closing])
    (by decide +kernel) rfl
  refine ⟨_, closed, by decide +kernel, h, by decide +kernel, ?_⟩
  rw [← fault?_eq_some]
  decide +kernel

end Template

end EmbeddedTemplate
