import EmbeddedTemplate.Proofs.Code.Mentions
import EmbeddedTemplate.Proofs.Template.Lines

namespace EmbeddedTemplate.Template

open Code Lexed

variable {line : Int} {rest : List Char}

def placeholderTokens (key : Nat) (line : Int) : List Code.Token :=
  [⟨.name, reservedName, line⟩, ⟨.sign .leftParen, "(", line⟩,
    ⟨.int, String.ofList (Nat.toDigits 10 key), line⟩, ⟨.sign .rightParen, ")", line⟩,
    ⟨.sign .semicolon, ";", line⟩]

theorem tokensAt?_sign {s : Sign} {c : Char} {cs : List Char}
    (hs : s = .leftParen ∨ s = .rightParen ∨ s = .semicolon) (hc : s.chars = [c]) :
    tokensAt? line (c :: cs) =
      (tokensAt? line cs).map (⟨.sign s, String.singleton c, line⟩ :: ·) := by
  have hb : lineBehind line [c] = line := by
    rcases hs with rfl | rfl | rfl <;> cases hc <;> simp [lineBehind]
  rw [tokensAt?_some (Lexeme.first?_single hs hc), List.take_zero, List.drop_zero, hb]
  rfl

theorem tokensAt?_placeholder (key : Nat) : tokensAt? line ((placeholder key).toList ++ rest) =
    (tokensAt? line rest).map (placeholderTokens key line ++ ·) := by
  obtain ⟨d, ds, hkey⟩ := List.exists_cons_of_ne_nil (Nat.toDigits_ne_nil (n := key) (b := 10))
  have hdigit : ∀ c ∈ d :: ds, c.isDigit := fun c hc =>
    Nat.isDigit_of_mem_toDigits (by decide) (by decide) (hkey ▸ hc)
  obtain ⟨hd, hds⟩ := List.forall_mem_cons.1 hdigit
  have hname (cs : List Char) : tokensAt? line ("__EEX__".toList ++ '(' :: cs) =
      (tokensAt? line ('(' :: cs)).map (⟨.name, reservedName, line⟩ :: ·) := by
    have hf : Lexeme.first? '_' (['_', 'E', 'E', 'X', '_', '_'] ++ '(' :: cs) =
      some (.terminal .name, 6) := rfl
    rw [show "__EEX__".toList ++ '(' :: cs = '_' :: (['_', 'E', 'E', 'X', '_', '_'] ++ '(' :: cs)
      from rfl, tokensAt?_some hf]
    simp [lineBehind]
    rfl
  have hint (cs : List Char) : tokensAt? line (d :: (ds ++ ')' :: cs)) =
      (tokensAt? line (')' :: cs)).map (⟨.int, String.ofList (d :: ds), line⟩ :: ·) := by
    have hf : Lexeme.first? d (ds ++ ')' :: cs) = some (.terminal .int, ds.length) :=
      Lexeme.first?_digits hd hds
    have hb : lineBehind line (d :: ds) = line := by
      have : '\n' ∉ d :: ds := fun h => absurd (hdigit _ h) (by decide)
      rw [lineBehind, List.count_eq_zero.2 this]
      simp
    rw [tokensAt?_some hf, List.take_left, List.drop_left, hb]
    rfl
  have hsplit : (placeholder key).toList ++ rest =
      ' ' :: ("__EEX__".toList ++ '(' :: (d :: (ds ++ ')' :: ';' :: rest))) := by
    rw [toList_placeholder, hkey]
    simp
  rw [hsplit, tokensAt?_blank rfl, show lineAfter line ' ' = line from rfl, hname,
    tokensAt?_sign (.inl rfl) rfl, hint, tokensAt?_sign (.inr (.inl rfl)) rfl,
    tokensAt?_sign (.inr (.inr rfl)) rfl, placeholderTokens, hkey]
  simp [Function.comp_def]

theorem number_placeholder (key : Nat) (line : Int) :
    Code.Token.number ⟨.int, String.ofList (Nat.toDigits 10 key), line⟩ = key := by
  rw [Code.Token.number, String.toList_ofList, filter_toDigits, Binary64.natOfDigits_toDigits]

def placeholderSite (dotted : Bool) (key : Nat) : Site := if dotted then .dotted else .guarded key

namespace Spine

def tailSites (dotted : Bool) (key : Nat) : List Tag → List Site
  | [] => []
  | tag :: tags => placeholderSite dotted key :: tailSites (endsInPoint tag.code) (key + 1) tags

end Spine

theorem sites_placeholder (dotted : Bool) (key : Nat) (line : Int) (more ts : List Code.Token) :
    sites dotted more (placeholderTokens key line ++ ts) =
      placeholderSite dotted key :: sites false more ts := by
  have hg (behind : List Code.Token) : guardKey? (⟨.sign .leftParen, "(", line⟩ ::
      ⟨.int, String.ofList (Nat.toDigits 10 key), line⟩ :: ⟨.sign .rightParen, ")", line⟩ ::
      ⟨.sign .semicolon, ";", line⟩ :: behind) = some (key : Int) :=
    (congrArg some (number_placeholder key line) :)
  simp only [placeholderTokens, List.cons_append, List.nil_append]
  rw [sites_cons, sites_cons_of_ne (by simp), sites_cons_of_ne (by simp),
    sites_cons_of_ne (by simp), sites_cons_of_ne (by simp), List.cons_append, List.cons_append,
    List.cons_append, List.cons_append, Site.of, hg]
  rfl

theorem exists_toList_tail (key : Nat) (line : Int) (tag : Tag) (tags : List Tag) :
    ∃ cs, (Spine.tail key line (tag :: tags)).toList = ' ' :: cs := by
  refine ⟨?_, ?_⟩
  rotate_left
  · simp only [Spine.tail, String.toList_append, toList_placeholder, List.cons_append]
    rfl

theorem sites_eq_nil_of_unreserved {code : String} {ts : List Code.Token} {dotted : Bool}
    {more : List Code.Token} (h : tokensAt? line code.toList = some ts)
    (hu : reservedName ∉ names code) : sites dotted more ts = [] := by
  refine sites_eq_nil fun t ht => ?_
  cases hr : t.isReserved with
  | false => rfl
  | true => exact absurd ((mem_names_iff h).2 ⟨t, ht, hr⟩) hu

theorem sites_tail {tags : List Tag} {key : Nat} {l : Int} {dotted : Bool} {ts : List Code.Token}
    (hu : ∀ tag ∈ tags, tag.Unreserved) (ho : ∀ tag ∈ tags.dropLast, EndsPlain tag.code)
    (h : tokensAt? line (Spine.tail key l tags).toList = some ts) :
    sites dotted [] ts = Spine.tailSites dotted key tags := by
  induction tags generalizing key l dotted line ts with
  | nil =>
    cases h
    rfl
  | cons tag tags ih =>
    obtain ⟨hut, hu⟩ := List.forall_mem_cons.1 hu
    have hbreaks : ∀ c ∈ (Spine.breaks l tag).toList, isCodeBlank c := by
      intro c hc
      obtain rfl : c = '\n' := by
        rw [Spine.breaks, String.toList_ofList] at hc
        exact List.eq_of_mem_replicate hc
      rfl
    rw [Spine.tail, String.toList_append, String.toList_append, String.toList_append,
      List.append_assoc, List.append_assoc, tokensAt?_placeholder, tokensAt?_blanks hbreaks] at h
    obtain ⟨us, hus, rfl⟩ := Option.map_eq_some_iff.1 h
    rw [sites_placeholder, Spine.tailSites]
    congr 1
    -- Only the code of the last tag may end in a comment: nothing stands behind it.
    cases tags with
    | nil =>
      rw [Spine.tail, String.toList_empty, List.append_nil] at hus
      exact sites_eq_nil_of_unreserved hus hut
    | cons next tags =>
      obtain ⟨hot, ho⟩ := List.forall_mem_cons.1 ho
      obtain ⟨cs, hcs⟩ := exists_toList_tail (key + 1) tag.line next tags
      rw [hcs, tokensAt?_append hot, ← hcs] at hus
      obtain ⟨vs, hv, hvs⟩ := Option.bind_eq_some_iff.1 hus
      obtain ⟨ws, hw, rfl⟩ := Option.map_eq_some_iff.1 hvs
      rw [sites_append, sites_eq_nil_of_unreserved hv hut, dottedAfter_tokensAt? hv, ih hu ho hw]
      rfl

structure Tag.Classified (tag : Tag) : Prop where
  kind : tag.kind = classify tag.code
  noComment : tag.kind = .opening ∨ tag.kind = .middle → endsInComment tag.code = false

theorem classified_of_ofCode {line : Int} {marker code : String} {tag : Tag}
    (h : Tag.ofCode line marker code = .ok tag) : tag.Classified := by
  unfold Tag.ofCode at h
  dsimp only at h
  split at h
  · cases h
  · next hc =>
    cases h
    refine ⟨rfl, fun hk => ?_⟩
    simp_all

theorem classified_of_ofPieces (pending : Pending) {pieces : List Piece} {tokens : List Token}
    (h : Token.ofPieces pending pieces = .ok tokens) : ∀ tag ∈ tagsOf tokens, tag.Classified := by
  induction pieces generalizing pending tokens with
  | nil =>
    cases h
    rw [← List.append_nil pending.toTokens, tagsOf_toTokens]
    simp
  | cons piece pieces ih =>
    cases piece with
    | text line cs => exact ih (pending.add line cs) h
    | quotation line cs => exact ih (pending.add line ('<' :: '%' :: cs ++ ['%', '>'])) h
    | tag line marker code =>
      rw [Token.ofPieces] at h
      split at h
      · exact ih pending h
      · obtain ⟨tag, ht, h⟩ := bind_eq_ok.1 h
        obtain ⟨rest, hr, h⟩ := bind_eq_ok.1 h
        cases h
        rw [tagsOf_toTokens, tagsOf_tag]
        exact List.forall_mem_cons.2 ⟨classified_of_ofCode ht, ih .empty hr⟩

theorem classified_of_tokenize {source : String} {line : Int} {trim : Bool} {tokens : List Token}
    (h : tokenize source line trim = .ok tokens) : ∀ tag ∈ tagsOf tokens, tag.Classified := by
  unfold tokenize at h
  obtain ⟨ts, ht, h⟩ := bind_eq_ok.1 h
  split at h <;> cases h
  exact classified_of_ofPieces .empty ht

theorem Tag.Classified.endsPlain {tag : Tag} (h : tag.Classified)
    (hk : tag.kind = .opening ∨ tag.kind = .middle) : EndsPlain tag.code := by
  refine endsPlain_of_tokens? ?_ (h.noComment hk)
  have hc := h.kind
  unfold classify at hc
  cases ht : tokens? tag.code with
  | some ts => rfl
  | none =>
    rw [ht] at hc
    rcases hk with hk | hk <;> rw [hk] at hc <;> cases hc

theorem kind_of_continues {tag : Tag} (h : tag.continues) : tag.kind = .middle := by
  simp only [Tag.continues, Bool.and_eq_true, decide_eq_true_eq] at h
  exact h.1

namespace Spine

theorem endsPlain_head {spine : Spine} (hp : spine.Proper)
    (hc : ∀ tag ∈ spine.tags, tag.Classified) : EndsPlain spine.head := by
  obtain ⟨opening, fold, later⟩ := spine
  have ho := (hc opening (List.mem_cons_self ..)).endsPlain (.inl hp.opening)
  cases fold with
  | none => exact ho.append rfl
  | some fold =>
    obtain ⟨hk, hb⟩ := hp.fold fold rfl
    have ht : EndsPlain fold.tag.code :=
      (hc fold.tag (by simp [tags])).endsPlain (.inr (kind_of_continues hk))
    have hblank : EndsPlain (fold.blank.elim "" (·.2)) := by
      cases htext : fold.blank with
      | none => rfl
      | some text =>
        refine Mode.after_plain fun c hc => ?_
        have := List.all_eq_true.1 (hb text htext) c hc
        constructor <;> rintro rfl <;> revert this <;> decide
    exact ho.append (hblank.append ht)

theorem endsPlain_later {spine : Spine} (hp : spine.Proper)
    (hc : ∀ tag ∈ spine.tags, tag.Classified) :
    ∀ tag ∈ spine.later.dropLast, EndsPlain tag.code := by
  intro tag ht
  obtain ⟨init, last, hl, hi, -⟩ := hp.later
  have hm : tag ∈ spine.tags := List.mem_append_right _ (List.dropLast_subset _ ht)
  rw [hl, List.dropLast_concat] at ht
  exact (hc tag hm).endsPlain (.inr (kind_of_continues (hi tag ht)))

/--
The reserved name does not stand in front of the first section, and no code in front of a section
ends in a point.
-/
structure Clean (spine : Spine) : Prop where
  unreserved : reservedName ∉ names spine.head
  head : endsInPoint spine.head = false
  later : ∀ tag ∈ spine.later.dropLast, endsInPoint tag.code = false

instance (spine : Spine) : Decidable spine.Clean :=
  decidable_of_iff (reservedName ∉ names spine.head ∧ endsInPoint spine.head = false ∧
      ∀ tag ∈ spine.later.dropLast, endsInPoint tag.code = false)
    ⟨fun ⟨hn, hh, hl⟩ => ⟨hn, hh, hl⟩, fun ⟨hn, hh, hl⟩ => ⟨hn, hh, hl⟩⟩

theorem dotted_mem_tailSites {dotted : Bool} {key : Nat} {tag : Tag} {tags : List Tag} :
    .dotted ∉ tailSites dotted key (tag :: tags) ↔
      dotted = false ∧ ∀ t ∈ (tag :: tags).dropLast, endsInPoint t.code = false := by
  induction tags generalizing dotted key tag with
  | nil => cases dotted <;> simp [tailSites, placeholderSite]
  | cons next tags ih =>
    rw [tailSites, List.mem_cons, not_or, ih, List.dropLast_cons_cons, List.forall_mem_cons]
    cases dotted <;> simp [placeholderSite]

theorem length_tailSites {dotted : Bool} {key : Nat} {tags : List Tag} :
    (tailSites dotted key tags).length = tags.length := by
  induction tags generalizing dotted key with
  | nil => rfl
  | cons tag tags ih => rw [tailSites, List.length_cons, ih, List.length_cons]

theorem tailSites_eq {dotted : Bool} {key : Nat} {tags : List Tag}
    (h : .dotted ∉ tailSites dotted key tags) :
    tailSites dotted key tags = (List.range' key tags.length).map fun k : Nat => .guarded k := by
  induction tags generalizing dotted key with
  | nil => rfl
  | cons tag tags ih =>
    rw [tailSites, List.mem_cons, not_or] at h
    rw [tailSites, ih h.2, List.length_cons, List.range'_succ, List.map_cons]
    cases dotted with
    | false => rfl
    | true => exact absurd rfl h.1

end Spine

/--
What the code of a block should become: each section has one placeholder, and the reserved name
stands nowhere else.
-/
def MarksSections (sections : Nat) (tree : Tree) : Prop :=
  tree.mentions.Perm ((List.range sections).map fun k : Nat => .placeholder k)

theorem stray_mem_of_fits {ss : List Site} {ms : List Mention} (h : List.Forall₂ Site.Fits ss ms)
    (hd : .dotted ∈ ss) : .stray ∈ ms := by
  induction h with
  | nil => cases hd
  | cons hf _ ih =>
    obtain rfl | hd := List.mem_cons.1 hd
    · cases hf
      exact List.mem_cons_self ..
    · exact List.mem_cons_of_mem _ (ih hd)

theorem eq_placeholders_of_fits {ks : List Nat} {ms : List Mention}
    (h : List.Forall₂ Site.Fits (ks.map fun k : Nat => .guarded k) ms) :
    ms = ks.map fun k : Nat => .placeholder k := by
  induction ks generalizing ms with
  | nil =>
    cases h
    rfl
  | cons k ks ih =>
    obtain ⟨m, ms', hf, hs, rfl⟩ := List.forall₂_cons_left_iff.1 h
    cases hf
    rw [ih hs, List.map_cons]

theorem Spine.exists_sites {spine : Spine} {ts : List Code.Token} (hp : spine.Proper)
    (hc : ∀ tag ∈ spine.tags, tag.Classified) (hu : ∀ tag ∈ spine.later, tag.Unreserved)
    (h : tokensAt? line spine.source.toList = some ts) :
    ∃ ss, sites false [] ts = ss ++ tailSites (endsInPoint spine.head) 0 spine.later ∧
      (ss = [] ↔ reservedName ∉ names spine.head) := by
  obtain ⟨tag, tags, hl⟩ : ∃ tag tags, spine.later = tag :: tags := by
    obtain ⟨init, last, hl, -⟩ := hp.later
    cases init <;> exact ⟨_, _, hl⟩
  obtain ⟨cs, hcs⟩ := exists_toList_tail 0 spine.headLine tag tags
  rw [source, String.toList_append, hl, hcs, tokensAt?_append (endsPlain_head hp hc), ← hcs,
    ← hl] at h
  obtain ⟨hs, hhs, h⟩ := Option.bind_eq_some_iff.1 h
  obtain ⟨us, hus, rfl⟩ := Option.map_eq_some_iff.1 h
  refine ⟨sites false (us ++ []) hs, ?_, ?_, ?_⟩
  · rw [sites_append, dottedAfter_tokensAt? hhs, sites_tail hu (endsPlain_later hp hc) hus]
  · intro hnil hn
    obtain ⟨t, ht, hr⟩ := (mem_names_iff hhs).1 hn
    rw [isReserved_of_sites_eq_nil hnil t ht] at hr
    cases hr
  · exact sites_eq_nil_of_unreserved hhs

theorem marksSections_iff [CharacterNames] {spine : Spine} {tree : Tree} (hp : spine.Proper)
    (hc : ∀ tag ∈ spine.tags, tag.Classified) (hu : ∀ tag ∈ spine.later, tag.Unreserved)
    (h : parse spine.source line = .ok tree) :
    MarksSections spine.later.length tree ↔ spine.Clean := by
  obtain ⟨-, ts, ms, hts, hm, hused⟩ := mentions_of_parse h
  obtain ⟨ss, hsites, hss⟩ := spine.exists_sites hp hc hu hts
  rw [Used, hsites] at hused
  obtain ⟨tag, tags, hl⟩ : ∃ tag tags, spine.later = tag :: tags := by
    obtain ⟨init, last, hl, -⟩ := hp.later
    cases init <;> exact ⟨_, _, hl⟩
  constructor
  · intro hlaw
    have hperm := hm.symm.trans hlaw
    -- As many mentions as sections leave none for the tags in front of the first section.
    have hlen := hused.length_eq
    rw [hperm.length_eq, List.length_append, Spine.length_tailSites, List.length_map,
      List.length_range] at hlen
    have hnil : ss = [] := List.length_eq_zero_iff.1 (by omega)
    have hd : .dotted ∉ Spine.tailSites (endsInPoint spine.head) 0 spine.later := by
      intro hd
      have := hperm.mem_iff.1 (stray_mem_of_fits hused (List.mem_append_right _ hd))
      simp at this
    rw [hl, Spine.dotted_mem_tailSites, ← hl] at hd
    exact ⟨hss.1 hnil, hd.1, hd.2⟩
  · intro hclean
    have hd : .dotted ∉ Spine.tailSites (endsInPoint spine.head) 0 spine.later := by
      rw [hl, Spine.dotted_mem_tailSites, ← hl]
      exact ⟨hclean.head, hclean.later⟩
    rw [hss.2 hclean.unreserved, List.nil_append, Spine.tailSites_eq hd,
      ← List.range_eq_range'] at hused
    rw [MarksSections, ← eq_placeholders_of_fits hused]
    exact hm

end EmbeddedTemplate.Template
