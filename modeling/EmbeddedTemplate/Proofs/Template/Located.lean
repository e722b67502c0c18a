import EmbeddedTemplate.Proofs.Template.Balance
import EmbeddedTemplate.Proofs.Template.Leaks

namespace EmbeddedTemplate.Template

open EmbeddedTemplate.Tree Code

def Fault.Located (file : String) : Fault → Prop
  | .source fault => fault.file = some file ∧ ∃ line, fault.line = some line
  | _ => False

variable {engine : Engine} {file : String} {e : Fault}

theorem located_fault (file : String) (line : Int) (cause : Cause) :
    Fault.Located file (fault file line cause) := ⟨rfl, line, rfl⟩

theorem located_of_parseCode [CharacterNames] {code : String} {line : Int}
    (h : parseCode file code line = .error e) : Fault.Located file e := by
  unfold parseCode at h
  cases hp : parse code line with
  | ok tree => simp [hp] at h
  | error fault =>
    rw [hp] at h
    cases h
    exact ⟨rfl, _, rfl⟩

theorem located_locateFault {fault : SourceFault} {line : Int} (h : fault.file = none) :
    Fault.Located file (locateFault file line (.source fault)) := by
  rw [locateFault, SourceFault.locate, h]
  exact ⟨rfl, _, rfl⟩

theorem Engine.located_of_concat {tag : Tag} {buffer tree : Tree}
    (h : (concat.expression buffer tag.marker tree).mapError (locateFault file tag.line) =
      .error e) : Fault.Located file e := by
  simp only [concat] at h
  split at h
  · cases h
  · split at h <;> cases h
    exact located_locateFault rfl

theorem Engine.located_of_raises {name : EngineName} (hn : name = .smart ∨ name = .concat)
    (h : (Engine.ofName name).Raises file e) : Fault.Located file e := by
  obtain rfl | rfl := hn <;>
    obtain ⟨buffer, content, ⟨⟩⟩ | ⟨tag, buffer, tree, h⟩ | ⟨buffer, ⟨⟩⟩ := h <;>
    exact located_of_concat h

/-- The code of the block asks for a section that it does not have. -/
def Spine.Overreaches [CharacterNames] (spine : Spine) (file : String) (key : Int) : Prop :=
  ∃ tree, parseCode file spine.source spine.opening.line = .ok tree ∧
    .placeholder key ∈ tree.mentions ∧ ¬ (0 ≤ key ∧ key < spine.later.length)

theorem lt_of_mem_tailSites {dotted : Bool} {start : Nat} {tags : List Tag} {site : Site}
    {key : Int} (hs : site ∈ Spine.tailSites dotted start tags)
    (hf : site.Fits (.placeholder key)) :
    0 ≤ key ∧ key < (start + tags.length : Nat) := by
  induction tags generalizing dotted start with
  | nil => cases hs
  | cons tag tags ih =>
    rw [List.length_cons]
    obtain rfl | hs := List.mem_cons.1 hs
    · cases dotted <;> cases hf
      omega
    · have := ih hs
      omega

theorem exists_site_of_fits {ss : List Site} {ms : List Mention} {m : Mention}
    (h : List.Forall₂ Site.Fits ss ms) (hm : m ∈ ms) : ∃ s ∈ ss, s.Fits m := by
  induction h with
  | nil => cases hm
  | @cons s m' ss ms hf _ ih =>
    obtain rfl | hm := List.mem_cons.1 hm
    · exact ⟨s, List.mem_cons_self .., hf⟩
    · obtain ⟨s, hs, hf⟩ := ih hm
      exact ⟨s, List.mem_cons_of_mem _ hs, hf⟩

theorem Spine.not_overreaches [CharacterNames] {spine : Spine} {key : Int} (hp : spine.Proper)
    (hc : ∀ tag ∈ spine.tags, tag.Classified) (hu : ∀ tag ∈ spine.later, tag.Unreserved)
    (hn : reservedName ∉ names spine.head) : ¬ spine.Overreaches file key := by
  rintro ⟨tree, ht, hm, hkey⟩
  obtain ⟨-, ts, ms, hts, hperm, hused⟩ := mentions_of_parse (parseCode_eq_ok.1 ht)
  obtain ⟨ss, hsites, hss⟩ := spine.exists_sites hp hc hu hts
  rw [Used, hsites, hss.2 hn, List.nil_append] at hused
  obtain ⟨site, hs, hf⟩ := exists_site_of_fits hused (hperm.mem_iff.1 hm)
  exact hkey (by simpa using lt_of_mem_tailSites hs hf)

theorem Spine.unreserved_head {spine : Spine} (ho : spine.opening.Unreserved)
    (hf : spine.fold = none) : reservedName ∉ names spine.head := by
  rw [head, hf, Option.elim_none, String.append_empty]
  exact ho

variable {options : Options} {tokens : List Token} {spine : Spine} {closed : OpenBlock} {key : Int}

theorem Spine.Overreaches.compileTokens [CharacterNames] (ho : spine.Overreaches options.file key)
    (h : engine.Closes options tokens spine closed) :
    ∃ key, compileTokens engine options tokens = .error (.noSection key) := by
  obtain ⟨tree, hp, hm, hkey⟩ := ho
  cases hs : substitute closed.sections tree with
  | ok tree' =>
    have hcode := (mentions_of_parse (parseCode_eq_ok.1 hp)).1
    have := exists_lookup_iff.1 (exists_lookup_of_substitute hcode hs hm)
    rw [h.follows.2.2] at this
    exact absurd this hkey
  | error e =>
    obtain ⟨key, rfl⟩ := noSection_of_substitute tree hs
    exact ⟨key, h.compileTokens_of_substitute hp hs⟩

theorem Fails.located_or [CharacterNames] {s : State} {token : Token}
    (h : Fails engine file s token e)
    (hr : ∀ e, engine.Raises file e → Fault.Located file e) :
    Fault.Located file e ∨ ∃ block blocks tag tree, s.taken = 0 ∧ s.blocks = block :: blocks ∧
      token = .tag tag ∧ tag.closes ∧ tag.Unreserved ∧
      parseCode file (block.extend s.buffer tag).source block.opening.line = .ok tree ∧
      substitute (block.extend s.buffer tag).sections tree = .error e := by
  cases h with
  | text h => exact .inl (hr _ (.inl ⟨_, _, h⟩))
  | plainTree _ _ h | blockTree _ _ _ _ _ h => exact .inl (hr _ (.inr (.inl ⟨_, _, _, h⟩)))
  | plainCode _ h | blockCode _ _ _ h => exact .inl (located_of_parseCode h)
  | reserved | markedMiddle | middleOutside | closingOutside | markedClosing =>
    exact .inl (located_fault ..)
  | noSection hk hu he hc hp hs =>
    subst hc
    exact .inr ⟨_, _, _, _, rfl, rfl, rfl, ⟨hk, he⟩, hu, hp, hs⟩

theorem exists_overreaches [CharacterNames] {before later : List Token} {s : State}
    {block : OpenBlock} {blocks : List OpenBlock} {tag : Tag} {tree : Tree}
    (hr : engine.run options.file (engine.init options) { buffer := engine.init options } before
      (.tag tag :: later) = .ok s) (ht : s.taken = 0) (hb : s.blocks = block :: blocks)
    (hc : tag.closes) (hu : tag.Unreserved)
    (hp : parseCode options.file (block.extend s.buffer tag).source block.opening.line = .ok tree)
    (hs : substitute (block.extend s.buffer tag).sections tree = .error e) :
    ∃ spine closed key, engine.Closes options (before ++ .tag tag :: later) spine closed ∧
      spine.Overreaches options.file key ∧ e = .noSection key ∧
      ∀ more, spine ∈ Cursor.ends {} (before ++ .tag tag :: more) := by
  obtain ⟨⟨frames, items⟩, hF⟩ := Engine.exists_follows hr ht
  have hblocks := hF.blocks
  rw [hb] at hblocks
  obtain ⟨frame, frames, -, -, rfl⟩ := List.forall₂_cons_left_iff.1 hblocks
  have hcl := Engine.Closes.intro hr ht hb hc hu hF.after
  obtain ⟨key, hm, hlook⟩ := exists_of_substitute_error tree hs
  obtain ⟨hsource, hopening, hlength⟩ := hcl.follows
  refine ⟨_, _, key, hcl, ⟨tree, ?_, hm, fun hkey => ?_⟩, noSection_of_lookup hlook,
    fun more => Cursor.mem_ends hF.after (by rw [Cursor.ended?, hc.1])⟩
  · rw [← hsource, ← hopening]
    exact hp
  · rw [← hlength] at hkey
    obtain ⟨t, ht⟩ := exists_lookup_iff.2 hkey
    rw [ht] at hlook
    cases hlook

theorem located_or_of_compileTokens [CharacterNames] (hr : ∀ e, engine.Raises options.file e →
    Fault.Located options.file e) (h : compileTokens engine options tokens = .error e) :
    Fault.Located options.file e ∨ ∃ spine closed key, engine.Closes options tokens spine closed ∧
      spine.Overreaches options.file key ∧ e = .noSection key := by
  change (engine.generate options.file _ _ tokens >>= fun result => pure result.1) = _ at h
  rw [bind_eq_error] at h
  obtain h | ⟨_, _, ⟨⟩⟩ := h
  obtain ⟨s, hs, hf⟩ | ⟨before, token, later, s, rfl, hs, hf⟩ := generate_eq_error h
  · obtain ⟨block, blocks, -, rfl⟩ | ⟨-, hf⟩ := finish_eq_error.1 hf
    · exact .inl (located_fault ..)
    · exact .inl (hr _ (.inr (.inr ⟨_, hf⟩)))
  · obtain hl | ⟨block, blocks, tag, tree, ht, hb, rfl, hc, hu, hp, hsub⟩ := hf.located_or hr
    · exact .inl hl
    · obtain ⟨spine, closed, key, hcl, ho, hkey, -⟩ := exists_overreaches hs ht hb hc hu hp hsub
      exact .inr ⟨spine, closed, key, hcl, ho, hkey⟩

variable {name : EngineName} {source : String}

/--
Every fault of a compilation names the file of the template and a line exactly if no block whose end
is reached asks for a section that it does not have. The only other fault is the key of such a
section, and only the tag of a fold, by the reserved name in it, can ask for one.
-/
theorem located_iff_not_overreaches [CharacterNames] (hn : name = .smart ∨ name = .concat) :
    ((∀ e, compile (Engine.ofName name) options source = .error e → Fault.Located options.file e) ↔
      ∀ tokens spine closed key, tokenize source options.line options.trim = .ok tokens →
        (Engine.ofName name).Closes options tokens spine closed →
        ¬ spine.Overreaches options.file key) ∧
    (∀ e, compile (Engine.ofName name) options source = .error e →
      Fault.Located options.file e ∨ ∃ key, e = .noSection key) ∧
    ∀ tokens spine closed key, tokenize source options.line options.trim = .ok tokens →
      (Engine.ofName name).Closes options tokens spine closed →
      spine.Overreaches options.file key →
      spine.fold.isSome ∧ reservedName ∈ names spine.head := by
  have hr : ∀ e, (Engine.ofName name).Raises options.file e → Fault.Located options.file e :=
    fun _ => Engine.located_of_raises hn
  cases ht : tokenize source options.line options.trim with
  | error fault =>
    have hl e (he : compile (Engine.ofName name) options source = .error e) :
        Fault.Located options.file e := by
      rw [compile_eq_error ht] at he
      cases he
      exact located_fault ..
    exact ⟨⟨fun _ _ _ _ _ h => (nomatch h), fun _ => hl⟩, fun e he => .inl (hl e he),
      fun _ _ _ _ h => (nomatch h)⟩
  | ok tokens =>
    rw [compile_eq ht]
    refine ⟨⟨fun hl => ?_, fun ho e he => ?_⟩, fun e he => ?_, ?_⟩
    · rintro _ spine closed key ⟨⟩ hc ho
      obtain ⟨key, he⟩ := ho.compileTokens hc
      exact hl _ he
    · obtain hl | ⟨spine, closed, key, hc, hover, -⟩ := located_or_of_compileTokens hr he
      · exact hl
      · exact absurd hover (ho tokens spine closed key rfl hc)
    · obtain hl | ⟨-, -, key, -, -, rfl⟩ := located_or_of_compileTokens hr he
      · exact .inl hl
      · exact .inr ⟨key, rfl⟩
    · rintro _ spine closed key ⟨⟩ hc ho
      have hname : reservedName ∈ names spine.head := by
        by_contra hname
        exact Spine.not_overreaches hc.proper
          (fun tag htag => classified_of_tokenize ht tag (hc.tags_sublist.subset htag))
          hc.unreserved.2 hname ho
      refine ⟨?_, hname⟩
      -- The tag that opens a block is looked at, so the name can only be in that of a fold.
      by_contra hf
      exact Spine.unreserved_head hc.unreserved.1 (by simpa using hf) hname

theorem located_of_marker :
    let source := "<%= case x do %>\n<% 1 -> %>A<% end %>\n<%/ b %>"
    compile Engine.smart {} source = .error (fault "nofile" 3 (.unsupportedMarker "/")) ∧
    ∀ tokens spine closed key, tokenize source 1 false = .ok tokens →
      Engine.smart.Closes {} tokens spine closed → ¬ spine.Overreaches "nofile" key := by
  intro source
  have he : compile Engine.smart {} source =
      .error (fault "nofile" 3 (.unsupportedMarker "/")) := by
    rw [← fault?_eq_some]
    decide +kernel
  obtain ⟨hiff, -⟩ := @located_iff_not_overreaches {} .smart source _ (.inl rfl)
  refine ⟨he, hiff.1 fun e h => ?_⟩
  cases he.symm.trans h
  exact located_fault ..

/-- The tag of a fold asks for the second section of a block that has one. -/
theorem not_located_of_fold :
    let source := "<%= case x do %>\n<% __EEX__(1) -> %>A<% end %>"
    compile Engine.smart {} source = .error (.noSection 1) ∧
      ¬ ∀ e, compile Engine.smart {} source = .error e → Fault.Located "nofile" e := by
  intro source
  have he : compile Engine.smart {} source = .error (.noSection 1) := by
    rw [← fault?_eq_some]
    decide +kernel
  exact ⟨he, fun h => h _ he⟩

end EmbeddedTemplate.Template
