import EmbeddedTemplate.Proofs.Code.Joining
import EmbeddedTemplate.Proofs.Template.Placeholders

namespace EmbeddedTemplate.Template

open Code Lexed

def placeholderSpellings (key : Nat) : List (Terminal × String) :=
  [(.name, reservedName), (.sign .leftParen, "("), (.int, toString key), (.sign .rightParen, ")"),
    (.sign .semicolon, ";")]

def spellings (code : String) : List (Terminal × String) := (spellings? code).getD []

namespace Spine

/-- The tokens from a section on: those of its placeholder and those of the tag that ends it. -/
def tailSpellings (key : Nat) : List Tag → List (Terminal × String)
  | [] => []
  | tag :: tags =>
    placeholderSpellings key ++ Template.spellings tag.code ++ tailSpellings (key + 1) tags

def spellings (spine : Spine) : List (Terminal × String) :=
  Template.spellings spine.opening.code ++
    spine.fold.elim [] (fun fold => Template.spellings fold.tag.code) ++
    tailSpellings 0 spine.later

/-- The `do` of the opening tag goes on in the fold. -/
def Fused (spine : Spine) : Prop := ∃ fold ∈ spine.fold, Fuses spine.opening.code fold.code

instance (spine : Spine) : Decidable spine.Fused :=
  match h : spine.fold with
  | none => .isFalse (by simp [Fused, h])
  | some fold => decidable_of_iff (Fuses spine.opening.code fold.code) (by simp [Fused, h])

end Spine

theorem exists_do_of_ofTokens {ts : List Code.Token} (h : TagKind.ofTokens ts = .opening) :
    ∃ t, ts.getLast? = some t ∧ t.terminal = .word .doWord := by
  unfold TagKind.ofTokens at h
  split at h
  · next first last _ hlast =>
    refine ⟨last, hlast, ?_⟩
    by_contra hdo
    simp only [hdo, decide_false, Bool.false_or, if_false] at h
    split at h
    · split at h <;> cases h
    · split at h <;> cases h
    · split at h <;> cases h
  · cases h

theorem isSome_tokens? {tag : Tag} (hc : tag.Classified) (hk : tag.kind ≠ .plain) :
    (tokens? tag.code).isSome := by
  by_contra hn
  have hc := hc.kind
  rw [classify, Option.not_isSome_iff_eq_none.1 hn] at hc
  exact hk hc

theorem spellings?_eq_some {tag : Tag} (hc : tag.Classified) (hk : tag.kind ≠ .plain) :
    spellings? tag.code = some (spellings tag.code) := by
  obtain ⟨ts, hts⟩ := Option.isSome_iff_exists.1 (isSome_tokens? hc hk)
  rw [spellings, spellings?, hts]
  rfl

theorem spelling_append {cs rest more : List Char} (h : Mode.plain.after cs = .plain)
    (hm : more = ' ' :: rest) (line line' : Int) :
    (tokensAt? line (cs ++ more)).map (·.map Code.Token.spelling) =
      ((tokensAt? line cs).map (·.map Code.Token.spelling)).bind fun us =>
        ((tokensAt? line' more).map (·.map Code.Token.spelling)).map (us ++ ·) := by
  subst hm
  rw [tokensAt?_append h]
  cases tokensAt? line cs with
  | none => rfl
  | some ts =>
    simp only [Option.bind_some, Option.map_some]
    rw [spelling_tokensAt? line' (lineBehind line cs), Option.map_map, Option.map_map]
    congr 1
    funext us
    simp

theorem spellings?_blanks {blank code : String} (h : ∀ c ∈ blank.toList, isCodeBlank c) :
    spellings? (blank ++ code) = spellings? code := by
  rw [spellings?, tokensAt?_of_tokens?, String.toList_append, tokensAt?_blanks h,
    spelling_tokensAt? _ 1, ← tokensAt?_of_tokens?, spellings?]

namespace Spine

variable {spine : Spine}

theorem kind_ne_plain (hp : spine.Proper) : ∀ tag ∈ spine.tags, tag.kind ≠ .plain := by
  intro tag ht hk
  obtain ⟨init, last, hlater, hinit, hlast⟩ := hp.later
  obtain ht | ht := List.mem_append.1 ht
  · obtain rfl | ht := List.mem_cons.1 ht
    · rw [hp.opening] at hk
      cases hk
    · obtain ⟨fold, hf, rfl⟩ : ∃ fold, spine.fold = some fold ∧ fold.tag = tag := by
        simpa using ht
      rw [kind_of_continues (hp.fold fold hf).1] at hk
      cases hk
  · rw [hlater] at ht
    obtain ht | ht := List.mem_append.1 ht
    · rw [kind_of_continues (hinit tag ht)] at hk
      cases hk
    · rw [List.mem_singleton.1 ht, hlast.1] at hk
      cases hk

theorem spelling_tail {tags : List Tag}
    (hs : ∀ tag ∈ tags, spellings? tag.code = some (Template.spellings tag.code))
    (ho : ∀ tag ∈ tags.dropLast, EndsPlain tag.code) (key : Nat) (l line : Int) :
    (tokensAt? line (tail key l tags).toList).map (·.map Code.Token.spelling) =
      some (tailSpellings key tags) := by
  induction tags generalizing key l line with
  | nil => rfl
  | cons tag tags ih =>
    obtain ⟨htag, hs⟩ := List.forall_mem_cons.1 hs
    have hbreaks : ∀ c ∈ (breaks l tag).toList, isCodeBlank c := by
      intro c hc
      rw [breaks, String.toList_ofList] at hc
      obtain rfl := List.eq_of_mem_replicate hc
      rfl
    have hkey : (placeholderTokens key line).map Code.Token.spelling = placeholderSpellings key :=
      rfl
    have hrest (line : Int) : (tokensAt? line (tag.code.toList ++
        (tail (key + 1) tag.line tags).toList)).map (·.map Code.Token.spelling) =
          some (Template.spellings tag.code ++ tailSpellings (key + 1) tags) := by
      have hown : (tokensAt? line tag.code.toList).map (·.map Code.Token.spelling) =
          some (Template.spellings tag.code) := (spelling_tokensAt? line 1 _).trans htag
      cases tags with
      | nil => simpa [tail, tailSpellings] using hown
      | cons next tags =>
        obtain ⟨hplain, ho⟩ := List.forall_mem_cons.1 ho
        obtain ⟨cs, hcs⟩ := exists_toList_tail (key + 1) tag.line next tags
        rw [spelling_append hplain hcs line 1, hown, ih hs ho]
        rfl
    rw [tail, String.toList_append, String.toList_append, String.toList_append, List.append_assoc,
      List.append_assoc, tokensAt?_placeholder, tokensAt?_blanks hbreaks, Option.map_map,
      tailSpellings, List.append_assoc, ← hkey]
    obtain ⟨ts, hts, hspelled⟩ := Option.map_eq_some_iff.1
      (hrest (lineBehind line (breaks l tag).toList))
    rw [hts, ← hspelled]
    simp

theorem spellings?_source (hp : spine.Proper) (hc : ∀ tag ∈ spine.tags, tag.Classified) :
    spellings? spine.source = (spellings? spine.head).map (· ++ tailSpellings 0 spine.later) := by
  have hlater tag (ht : tag ∈ spine.later) :
      spellings? tag.code = some (Template.spellings tag.code) :=
    have hmem : tag ∈ spine.tags := List.mem_append_right _ ht
    spellings?_eq_some (hc tag hmem) (kind_ne_plain hp tag hmem)
  have htail := spelling_tail hlater (endsPlain_later hp hc) 0 spine.headLine 1
  obtain ⟨tag, tags, hl⟩ : ∃ tag tags, spine.later = tag :: tags := by
    obtain ⟨init, last, hl, -⟩ := hp.later
    cases init <;> exact ⟨_, _, hl⟩
  obtain ⟨cs, hcs⟩ := exists_toList_tail 0 spine.headLine tag tags
  rw [← hl] at hcs
  rw [spellings?, tokensAt?_of_tokens?, source, String.toList_append,
    spelling_append (endsPlain_head hp hc) hcs 1 1, htail, ← tokensAt?_of_tokens?, ← spellings?]
  cases spellings? spine.head <;> rfl

theorem spellings?_fold {fold : Fold} (hp : fold.Proper) (hc : fold.tag.Classified) :
    spellings? fold.code = some (Template.spellings fold.tag.code) := by
  have hk : fold.tag.kind ≠ .plain := by
    rw [kind_of_continues hp.1]
    decide
  rw [Fold.code, spellings?_blanks, spellings?_eq_some hc hk]
  cases htext : fold.blank with
  | none => simp
  | some text =>
    intro c hc
    have := List.all_eq_true.1 (hp.2 text htext) c hc
    simp only [Text.isGap, Bool.or_eq_true, decide_eq_true_eq] at this
    rcases this with ((rfl | rfl) | rfl) | rfl <;> rfl

theorem spellings?_head_iff (hp : spine.Proper) (hc : ∀ tag ∈ spine.tags, tag.Classified) :
    spellings? spine.head = some (Template.spellings spine.opening.code ++
      spine.fold.elim [] fun fold => Template.spellings fold.tag.code) ↔ ¬ spine.Fused := by
  have ho := hc spine.opening List.mem_cons_self
  have hopening := spellings?_eq_some ho (kind_ne_plain hp _ List.mem_cons_self)
  rw [head, Fused]
  cases hf : spine.fold with
  | none =>
    rw [Option.elim_none, Option.elim_none, String.append_empty, List.append_nil]
    simp [hopening]
  | some fold =>
    have hfold := spellings?_fold (hp.fold fold hf) (hc fold.tag (by simp [tags, hf]))
    obtain ⟨ts, hts⟩ := Option.isSome_iff_exists.1
      (isSome_tokens? ho (kind_ne_plain hp _ List.mem_cons_self))
    obtain ⟨t, hlast, hdo⟩ : ∃ t, ts.getLast? = some t ∧ t.terminal = .word .doWord := by
      refine exists_do_of_ofTokens ?_
      rw [← hp.opening, ho.kind, classify, hts]
      rfl
    have hspelled : Template.spellings spine.opening.code = ts.map Code.Token.spelling := by
      rw [Template.spellings, spellings?, hts]
      rfl
    rw [Option.elim_some, Option.elim_some, hspelled,
      spellings?_append_iff hts hlast hdo (ho.noComment (.inl hp.opening)) hfold]
    simp

end Spine

variable {engine : Engine} {options : Options} {source : String} {tokens : List Token}
variable {spine : Spine} {closed : OpenBlock}

/--
The code of a block that is handed to the parser has just the tokens of its tags and placeholders,
unless the `do` of the opening tag goes on in the code of a fold; then it has other ones.
-/
theorem spellings?_source_iff_not_fused [CharacterNames]
    (ht : tokenize source options.line options.trim = .ok tokens)
    (hc : engine.Closes options tokens spine closed) :
    (∀ tag ∈ spine.tags, (tokens? tag.code).isSome) ∧
    (spellings? closed.source = some spine.spellings ↔ ¬ spine.Fused) := by
  have hclassified tag (htag : tag ∈ spine.tags) : tag.Classified :=
    classified_of_tokenize ht tag (hc.tags_sublist.subset htag)
  refine ⟨fun tag htag => isSome_tokens? (hclassified tag htag)
    (Spine.kind_ne_plain hc.proper tag htag), ?_⟩
  rw [hc.follows.1, Spine.spellings?_source hc.proper hclassified,
    ← Spine.spellings?_head_iff hc.proper hclassified, Spine.spellings]
  cases spellings? spine.head with
  | none => simp
  | some us => simp only [Option.map_some, Option.some.injEq, List.append_cancel_right_eq]

theorem spellings?_source_of_fold :
    let opening : Tag := ⟨.opening, 1, "=", " case x do"⟩
    let fold : Fold := ⟨some (1, "\n"), ⟨.middle, 2, "", "1 -> "⟩⟩
    let middle : Tag := ⟨.middle, 2, "", ":b -> "⟩
    let closing : Tag := ⟨.closing, 2, "", " end "⟩
    ∃ tokens closed,
      tokenize "<%= case x do%>\n<%1 -> %>A<%:b -> %>B<% end %>" 1 false = .ok tokens ∧
      Engine.smart.Closes {} tokens ⟨opening, some fold, [middle, closing]⟩ closed ∧
      spellings? closed.source =
        some (Spine.spellings ⟨opening, some fold, [middle, closing]⟩) := by
  intro opening fold middle closing
  have ht : tokenize "<%= case x do%>\n<%1 -> %>A<%:b -> %>B<% end %>" 1 false =
      .ok ([.tag opening] ++ fold.tokens ++ [.text 2 "A", .tag middle, .text 2 "B"] ++
        .tag closing :: []) := by
    decide +kernel
  obtain ⟨closed, h⟩ := Engine.exists_closes Engine.smart {}
    ([.tag opening] ++ fold.tokens ++ [.text 2 "A", .tag middle, .text 2 "B"]) closing []
    ⟨[], opening, some fold, [⟨[.text 2 "A"], middle⟩]⟩ []
    [.text 2 "B"] (by decide +kernel) (by simp [Tag.closes, closing]) (by decide +kernel) rfl
  exact ⟨_, closed, ht, h, (spellings?_source_iff_not_fused ht h).2.2 (by decide +kernel)⟩

theorem spellings?_source_ne_of_fold :
    let opening : Tag := ⟨.opening, 1, "=", " case x do"⟩
    let fold : Fold := ⟨none, ⟨.middle, 1, "", "1 -> "⟩⟩
    let closing : Tag := ⟨.closing, 1, "", " end "⟩
    ∃ tokens closed, tokenize "<%= case x do%><%1 -> %>A<% end %>" 1 false = .ok tokens ∧
      Engine.smart.Closes {} tokens ⟨opening, some fold, [closing]⟩ closed ∧
      spellings? closed.source ≠ some (Spine.spellings ⟨opening, some fold, [closing]⟩) ∧
      compile Engine.smart {} "<%= case x do%><%1 -> %>A<% end %>" = .error
        (.source ⟨.expression, .before "->", some "nofile", some 1⟩) := by
  intro opening fold closing
  obtain ⟨closed, h⟩ := Engine.exists_closes Engine.smart {}
    ([.tag opening] ++ fold.tokens ++ [.text 1 "A"]) closing [] ⟨[], opening, some fold, []⟩ []
    [.text 1 "A"] (by decide +kernel) (by simp [Tag.closes, closing]) (by decide +kernel) rfl
  have hs : closed.source = Spine.source ⟨opening, some fold, [closing]⟩ := h.follows.1
  refine ⟨_, closed, by decide +kernel, h, ?_, ?_⟩
  · rw [hs]
    decide +kernel
  · rw [← fault?_eq_some]
    decide +kernel

end EmbeddedTemplate.Template
