import EmbeddedTemplate.Proofs.Template.Engines
import EmbeddedTemplate.Proofs.Template.Placeholders
import EmbeddedTemplate.Proofs.Template.Substitute
import Mathlib.Data.List.Induction
import Mathlib.Data.List.Nodup

namespace EmbeddedTemplate.Template

open EmbeddedTemplate.Tree Code

/-- Each section stands in the new tree where its placeholder stood, which was one place. -/
structure Placed (sections : List Tree) (tree tree' : Tree) : Prop where
  places : ∀ k (h : k < sections.length), ∃ path, tree'.at? path = some sections[k] ∧
    ∀ q, (tree.at? q).bind placeholderKey? = some (k : Int) ↔ q = path
  mentions : tree'.mentions.Perm (sections.flatMap Tree.mentions)

variable {sections : List Tree} {tree : Tree}

theorem MarksSections.fillable (h : MarksSections sections.length tree) :
    Fillable sections tree := by
  intro m hm
  obtain ⟨k, hk, rfl⟩ := List.mem_map.1 (h.mem_iff.1 hm)
  exact ⟨k, _, rfl, lookup_of_lt (List.mem_range.1 hk)⟩

theorem MarksSections.count_le_one {n : Nat} (h : MarksSections n tree) (m : Mention) :
    tree.mentions.count m ≤ 1 := by
  refine List.nodup_iff_count_le_one.1 (h.nodup_iff.2 ?_) m
  refine List.nodup_range.map fun k l hkl => ?_
  exact Int.ofNat.inj (Mention.placeholder.inj hkl)

theorem MarksSections.exists_placed (ht : tree.OfCode) (h : MarksSections sections.length tree) :
    ∃ tree', substitute sections tree = .ok tree' ∧ Placed sections tree tree' := by
  obtain ⟨tree', hs, hf⟩ := exists_substitute ht h.fillable
  refine ⟨tree', hs, ?_, ?_⟩
  · intro k hk
    have hm : .placeholder k ∈ tree.mentions :=
      h.mem_iff.2 (List.mem_map.2 ⟨k, List.mem_range.2 hk, rfl⟩)
    obtain ⟨path, u, hu, hp⟩ := exists_at?_of_mem_mentions tree hm
    refine ⟨path, ?_, fun q => ⟨fun hq => ?_, ?_⟩⟩
    · rw [hf.places hu hp, lookup_of_lt hk]
      rfl
    · obtain ⟨v, hv, hq⟩ := Option.bind_eq_some_iff.1 hq
      exact at?_unique (h.count_le_one _) hv (mention?_eq_placeholder.2 hq) hu hp
    · rintro rfl
      rw [hu, Option.bind_some, mention?_eq_placeholder.1 hp]
  · rw [hf.mentions, ← flatMap_held]
    exact h.flatMap_right _

variable {engine : Engine} {options : Options} {tokens : List Token}

/-- Wherever the end of a block is reached, its code marks its sections or does not parse. -/
def Engine.MarksAll [CharacterNames] (engine : Engine) (options : Options) (tokens : List Token) :
    Prop :=
  ∀ spine closed tree, engine.Closes options tokens spine closed →
    parseCode options.file closed.source closed.opening.line = .ok tree →
    MarksSections closed.sections.length tree

structure State.Unmentioned (s : State) : Prop where
  buffer : s.buffer.mentions = []
  outer : ∀ b ∈ s.blocks, b.outer.mentions = []
  sections : ∀ b ∈ s.blocks, ∀ t ∈ b.sections, t.mentions = []

theorem mentions_of_unreserved [CharacterNames] {line : Int} {tag : Tag} {tree : Tree}
    (hu : tag.Unreserved)
    (h : parse tag.code line = .ok tree) : tree.mentions = [] := by
  obtain ⟨-, ts, ms, hts, hm, hused⟩ := mentions_of_parse h
  rw [Used, sites_eq_nil_of_unreserved hts hu] at hused
  cases hused
  exact hm.eq_nil

theorem Placed.mentions_eq_nil {tree' : Tree} (h : Placed sections tree tree')
    (hs : ∀ t ∈ sections, t.mentions = []) : tree'.mentions = [] := by
  have := h.mentions
  rwa [List.flatMap_eq_nil_iff.2 hs, List.perm_nil] at this

variable {file : String} {s s' : State} {token : Token} {later : List Token}

theorem Engine.Tidy.add {tag : Tag} {buffer tree buffer' : Tree} (h : engine.Tidy)
    (hb : buffer.mentions = []) (ht : tree.mentions = [])
    (ha : engine.add file tag buffer tree = .ok buffer') : buffer'.mentions = [] :=
  h.expression hb ht (mapError_eq_ok.1 ha)

theorem unmentioned_extend {block : OpenBlock} {buffer : Tree} {tag : Tag}
    (hs : ∀ t ∈ block.sections, t.mentions = []) (hb : buffer.mentions = []) :
    ∀ t ∈ (block.extend buffer tag).sections, t.mentions = [] :=
  List.forall_mem_append.2 ⟨hs, by simpa using hb⟩

theorem Steps.unmentioned [CharacterNames] (hT : engine.Tidy) (h : s.Unmentioned)
    (hm : ∀ {block blocks tag tree}, s.taken = 0 → s.blocks = block :: blocks →
      token = .tag tag → tag.closes → tag.Unreserved →
      parseCode file (block.extend s.buffer tag).source block.opening.line = .ok tree →
      MarksSections (block.extend s.buffer tag).sections.length tree)
    (hs : Steps engine file (engine.init options) s token later s') : s'.Unmentioned := by
  obtain ⟨hb, ho, hsec⟩ := h
  cases hs with
  | skip => exact ⟨hb, ho, hsec⟩
  | text ht => exact ⟨hT.text hb ht, ho, hsec⟩
  | plain hk hu hp ha =>
    exact ⟨hT.add hb (mentions_of_unreserved hu (parseCode_eq_ok.1 hp)) ha, ho, hsec⟩
  | opening hk hu hl =>
    exact ⟨hT.init options, List.forall_mem_cons.2 ⟨hb, ho⟩,
      List.forall_mem_cons.2 ⟨nofun, hsec⟩⟩
  | middle hk hu he =>
    obtain ⟨hob, ho⟩ := List.forall_mem_cons.1 ho
    obtain ⟨hsb, hsec⟩ := List.forall_mem_cons.1 hsec
    exact ⟨hT.init options, List.forall_mem_cons.2 ⟨hob, ho⟩,
      List.forall_mem_cons.2 ⟨unmentioned_extend hsb hb, hsec⟩⟩
  | closing hk hu he hc hp hs ha =>
    obtain ⟨hob, ho⟩ := List.forall_mem_cons.1 ho
    obtain ⟨hsb, hsec⟩ := List.forall_mem_cons.1 hsec
    subst hc
    have hmarks := hm rfl rfl rfl ⟨hk, he⟩ hu hp
    have hcode := (mentions_of_parse (parseCode_eq_ok.1 hp)).1
    obtain ⟨_, hs', hplaced⟩ := hmarks.exists_placed hcode
    obtain rfl := Except.ok.inj (hs.symm.trans hs')
    exact ⟨hT.add hob (hplaced.mentions_eq_nil (unmentioned_extend hsb hb)) ha, ho, hsec⟩

theorem unmentioned_of_run [CharacterNames] (hT : engine.Tidy) (hm : engine.MarksAll options tokens)
    {now later : List Token} (htokens : tokens = now ++ later)
    (hr : engine.run options.file (engine.init options) { buffer := engine.init options } now
      later = .ok s) : s.Unmentioned := by
  induction now using List.reverseRecOn generalizing later s with
  | nil =>
    cases hr
    exact ⟨hT.init options, nofun, nofun⟩
  | append_singleton now token ih =>
    rw [run_append] at hr
    obtain ⟨s₁, hr₁, hr⟩ := bind_eq_ok.1 hr
    rw [run_cons] at hr
    obtain ⟨s₂, hs, hr⟩ := bind_eq_ok.1 hr
    cases hr
    rw [List.append_assoc] at htokens
    refine Steps.unmentioned hT (ih htokens hr₁) ?_ (.of_ok hs)
    intro block blocks tag tree ht hb htoken hc hu hp
    subst htoken
    obtain ⟨spine, hcloses⟩ := Engine.closes_of_run hr₁ ht hb hc hu
    exact hm _ _ _ (htokens ▸ hcloses) hp

theorem mentions_of_compileTokens [CharacterNames] {artifact : Tree} (hT : engine.Tidy)
    (hm : engine.MarksAll options tokens) (h : compileTokens engine options tokens = .ok artifact) :
    artifact.mentions = [] := by
  obtain ⟨position, h⟩ := compileTokens_eq_ok.1 h
  rw [generate_eq_run] at h
  obtain ⟨s, hr, h⟩ := bind_eq_ok.1 h
  obtain ⟨-, hbody, -⟩ := finish_eq_ok.1 h
  exact hT.body (unmentioned_of_run hT hm (List.append_nil tokens).symm hr).buffer hbody

variable {source : String}

/--
The code of a block becomes a tree with one placeholder for each section, and no other use of the
reserved name, exactly if the block is clean. The sections of a clean block get to the places of
their placeholders, and if all blocks are clean nothing of the placeholders is left at the end.
-/
theorem marksSections_iff_clean [CharacterNames]
    (ht : tokenize source options.line options.trim = .ok tokens) :
    (∀ spine closed tree, engine.Closes options tokens spine closed →
      parseCode options.file closed.source closed.opening.line = .ok tree →
      (MarksSections closed.sections.length tree ↔ spine.Clean) ∧
      (spine.Clean → ∃ tree', substitute closed.sections tree = .ok tree' ∧
        Placed closed.sections tree tree')) ∧
    (engine.Tidy → (∀ spine closed, engine.Closes options tokens spine closed → spine.Clean) →
      ∀ artifact, compile engine options source = .ok artifact → artifact.mentions = []) := by
  have hmarks {spine closed tree} (h : engine.Closes options tokens spine closed)
      (hp : parseCode options.file closed.source closed.opening.line = .ok tree) :
      MarksSections closed.sections.length tree ↔ spine.Clean := by
    obtain ⟨hs, -, hl⟩ := h.follows
    rw [hs] at hp
    rw [hl]
    exact marksSections_iff h.proper
      (fun tag htag => classified_of_tokenize ht tag (h.tags_sublist.subset htag))
      h.unreserved.2 (parseCode_eq_ok.1 hp)
  refine ⟨fun spine closed tree h hp => ⟨hmarks h hp, fun hc => ?_⟩, fun hT hc artifact ha => ?_⟩
  · exact ((hmarks h hp).2 hc).exists_placed (mentions_of_parse (parseCode_eq_ok.1 hp)).1
  · refine mentions_of_compileTokens hT (fun spine closed tree h hp => ?_) (compile_eq ht ▸ ha)
    exact (hmarks h hp).2 (hc spine closed h)

theorem marksSections_of_else :
    let opening : Tag := ⟨.opening, 1, "=", " if a do "⟩
    let middle : Tag := ⟨.middle, 1, "", " else "⟩
    let closing : Tag := ⟨.closing, 1, "", " end "⟩
    let source := "<%= if a do %>A<% else %><%= b %><% end %>"
    ∃ tokens closed tree tree' artifact, tokenize source 1 false = .ok tokens ∧
      Engine.smart.Closes {} tokens ⟨opening, none, [middle, closing]⟩ closed ∧
      parseCode "nofile" closed.source closed.opening.line = .ok tree ∧
      MarksSections closed.sections.length tree ∧ substitute closed.sections tree = .ok tree' ∧
      Placed closed.sections tree tree' ∧ compile Engine.smart {} source = .ok artifact ∧
      artifact.mentions = [] := by
  intro opening middle closing source
  have ht : tokenize source 1 false = .ok [.tag opening, .text 1 "A", .tag middle,
      .tag ⟨.plain, 1, "=", " b "⟩, .tag closing] := by decide +kernel
  obtain ⟨closed, h⟩ := Engine.exists_closes Engine.smart {}
    [.tag opening, .text 1 "A", .tag middle, .tag ⟨.plain, 1, "=", " b "⟩] closing []
    ⟨[], opening, none, [⟨[.text 1 "A"], middle⟩]⟩ [] [.plain ⟨.plain, 1, "=", " b "⟩]
    (by decide +kernel) (by simp [Tag.closes, closing]) (by decide +kernel) rfl
  have hc : ∀ spine closed, Engine.smart.Closes {} [.tag opening, .text 1 "A", .tag middle,
      .tag ⟨.plain, 1, "=", " b "⟩, .tag closing] spine closed → spine.Clean := fun spine _ h =>
    (by decide +kernel : ∀ s ∈ Cursor.ends {} [.tag opening, .text 1 "A", .tag middle,
      .tag ⟨.plain, 1, "=", " b "⟩, .tag closing], s.Clean) spine h.mem_ends
  obtain ⟨hs, ho, -⟩ := h.follows
  obtain ⟨tree, hp⟩ : ∃ tree, parseCode "nofile" closed.source closed.opening.line = .ok tree := by
    rw [hs, ho]
    exact isSome_toOption.1 (by decide +kernel)
  obtain ⟨artifact, ha⟩ : ∃ artifact, compile Engine.smart {} source = .ok artifact :=
    isSome_toOption.1 (by decide +kernel)
  obtain ⟨hblocks, hleft⟩ := @marksSections_iff_clean Engine.smart {} _ _ _ ht
  obtain ⟨hiff, hplaced⟩ := hblocks _ _ _ h hp
  obtain ⟨tree', hs, hpl⟩ := hplaced (hc _ _ h)
  exact ⟨_, closed, tree, tree', artifact, ht, h, hp, hiff.2 (hc _ _ h), hs, hpl, ha,
    hleft Engine.tidy_smart hc artifact ha⟩

/-- The tag of a fold is not looked at, and neither is what the pieces of code form together. -/
theorem not_marksSections_of_fold :
    let opening : Tag := ⟨.opening, 1, "=", " case x do "⟩
    let fold : Fold := ⟨none, ⟨.middle, 1, "", " __EEX__(5) -> "⟩⟩
    let closing : Tag := ⟨.closing, 1, "", " end "⟩
    let source := "<%= case x do %><% __EEX__(5) -> %>A<% end %>"
    ∃ tokens closed tree, tokenize source 1 false = .ok tokens ∧
      Engine.smart.Closes {} tokens ⟨opening, some fold, [closing]⟩ closed ∧
      parseCode "nofile" closed.source closed.opening.line = .ok tree ∧
      ¬ MarksSections closed.sections.length tree ∧
      compile Engine.smart {} source = .error (.noSection 5) := by
  intro opening fold closing source
  have ht : tokenize source 1 false =
      .ok ([.tag opening] ++ fold.tokens ++ [.text 1 "A"] ++ .tag closing :: []) := by
    decide +kernel
  obtain ⟨closed, h⟩ := Engine.exists_closes Engine.smart {}
    ([.tag opening] ++ fold.tokens ++ [.text 1 "A"]) closing [] ⟨[], opening, some fold, []⟩ []
    [.text 1 "A"] (by decide +kernel) (by simp [Tag.closes, closing]) (by decide +kernel) rfl
  obtain ⟨hs, ho, hl⟩ := h.follows
  obtain ⟨tree, hp, hm⟩ : ∃ tree, parseCode "nofile" closed.source closed.opening.line = .ok tree ∧
      tree.mentions.length = 2 := by
    have hsome : (parseCode "nofile" (Spine.source ⟨opening, some fold, [closing]⟩) 1).toOption.any
      (·.mentions.length = 2) := by decide +kernel
    obtain ⟨tree, hp, hm⟩ := (Option.any_eq_true ..).1 hsome
    rw [hs, ho]
    exact ⟨tree, toOption_eq_some.1 hp, of_decide_eq_true hm⟩
  refine ⟨_, closed, tree, ht, h, hp, fun hmarks => ?_, ?_⟩
  · have := hmarks.length_eq
    rw [hm, hl] at this
    cases this
  · rw [← fault?_eq_some]
    decide +kernel

example : (compile Engine.smart {} "<%= if a do %>A<% else x. %>B<% end %>").toOption.map
    (·.mentions) = some [.stray] := by decide +kernel

end EmbeddedTemplate.Template
