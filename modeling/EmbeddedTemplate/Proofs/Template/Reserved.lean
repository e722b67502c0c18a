import EmbeddedTemplate.Proofs.Template.Located

namespace EmbeddedTemplate.Template

/-- Behind these tokens the code of the tag continues that of an opening tag. -/
def Folds (before : List Token) (tag : Tag) : Bool :=
  tag.continues &&
    match before.reverse with
    | .tag opening :: _ => opening.kind = .opening
    | .text _ blank :: .tag opening :: _ => opening.kind = .opening && blank.toList.all Text.isGap
    | _ => false

inductive Ahead : Nat → List Token → List Token → Prop
  | none {before later} : Ahead 0 before later
  | tag {before tag later} : Folds before tag → Ahead 1 before (.tag tag :: later)
  | text {before line blank tag later} : Folds (before ++ [.text line blank]) tag →
      Ahead 2 before (.text line blank :: .tag tag :: later)

variable {engine : Engine} {file : String} {init : Tree} {s s' : State} {token : Token}
variable {before now later tokens : List Token} {tag : Tag} {e : Fault}

theorem ahead_lookAhead (hk : tag.kind = .opening) (before later : List Token) :
    Ahead (lookAhead tag.code tag.line later).taken (before ++ [.tag tag]) later := by
  unfold lookAhead
  split
  · split
    · next t _ ht => exact .tag (by simp [Folds, ht, hk])
    · exact .none
  · split
    · next ht =>
      rw [Bool.and_eq_true] at ht
      exact .text (by simp [Folds, ht, hk])
    · exact .none
  · exact .none

theorem Steps.ahead [CharacterNames] (h : Ahead s.taken before (token :: later))
    (hs : Steps engine file init s token later s') : Ahead s'.taken (before ++ [token]) later := by
  cases hs with
  | skip =>
    generalize hn : _ + 1 = n at h
    cases h with
    | none => cases hn
    | tag _ => cases hn; exact .none
    | text hf => cases hn; exact .tag hf
  | opening hk _ hl => exact hl ▸ ahead_lookAhead hk before later
  | text | plain | middle | closing => exact .none

theorem ahead_of_run [CharacterNames] (h : Ahead s.taken before (now ++ later))
    (hr : engine.run file init s now later = .ok s') : Ahead s'.taken (before ++ now) later := by
  induction now generalizing s before with
  | nil =>
    cases hr
    rwa [List.append_nil]
  | cons token now ih =>
    rw [run_cons, bind_eq_ok] at hr
    obtain ⟨s₁, hs, hr⟩ := hr
    have := ih ((Steps.of_ok hs).ahead h) hr
    rwa [List.append_assoc] at this

theorem taken_eq_zero [CharacterNames] {options : Options}
    (hr : engine.run options.file (engine.init options) { buffer := engine.init options } before
      (.tag tag :: later) = .ok s) (hf : ¬ Folds before tag) : s.taken = 0 := by
  have h : Ahead s.taken ([] ++ before) (.tag tag :: later) := ahead_of_run .none hr
  rw [List.nil_append] at h
  cases hn : s.taken with
  | zero => rfl
  | succ n =>
    rw [hn] at h
    cases h with
    | tag h => exact absurd h hf

theorem compileTokens_of_reserved [CharacterNames] {options : Options} (hu : ¬ tag.Unreserved)
    (hf : ¬ Folds before tag) :
    compileTokens engine options (before ++ .tag tag :: later) =
      engine.run options.file (engine.init options) { buffer := engine.init options } before
        (.tag tag :: later) >>= fun _ =>
          .error (fault options.file tag.line (.reserved tag.marker tag.code)) := by
  change (engine.generate _ _ _ _ >>= fun result => pure result.1) = _
  rw [generate_append]
  cases hr : engine.run options.file (engine.init options) { buffer := engine.init options } before
      (.tag tag :: later) with
  | error e => rfl
  | ok s =>
    have ht := taken_eq_zero hr hf
    obtain ⟨_, position, buffer, blocks⟩ := s
    cases ht
    rw [ok_bind, ok_bind, generate_cons, step_reserved hu]
    rfl

def Sound {α : Type} (P : α → Prop) : Except Fault α → Prop
  | .ok a => P a
  | .error e => ∃ fault, e = .source fault

section

variable {α : Type} {P : α → Prop} {x : Except Fault α} {a : α}

theorem Sound.of_ok (h : Sound P x) (hx : x = .ok a) : P a := by
  subst hx
  exact h

theorem Sound.of_error (h : Sound P x) (hx : x = .error e) : ∃ fault, e = .source fault := by
  subst hx
  exact h

end

/-- The engine makes buffers of its own and takes them. -/
structure Engine.Owns (engine : Engine) (own : Tree → Prop) : Prop where
  init options : own (engine.init options)
  text {buffer content} : own buffer → Sound own (engine.text buffer content)
  expression {buffer marker tree} : own buffer → Sound own (engine.expression buffer marker tree)
  body {buffer} : own buffer → Sound (fun _ => True) (engine.body buffer)

theorem sound_record {buffer : Tree} (h : ∃ entries, buffer = .sealed entries) (entry : List Tree) :
    Sound (fun b => ∃ entries, b = .sealed entries) (Engine.record buffer entry) := by
  obtain ⟨entries, rfl⟩ := h
  exact ⟨_, rfl⟩

theorem sound_concat (buffer : Tree) (marker : String) (tree : Tree) :
    Sound (fun _ => True) (Engine.concat.expression buffer marker tree) := by
  simp only [Engine.concat]
  split
  · trivial
  · split
    · trivial
    · exact ⟨_, rfl⟩

theorem Engine.exists_owns (name : EngineName) : ∃ own, (ofName name).Owns own := by
  cases name with
  | smart | concat => exact ⟨fun _ => True, fun _ => trivial, fun _ => trivial,
      fun _ => sound_concat .., fun _ => trivial⟩
  | recording | indenting =>
    refine ⟨fun b => ∃ entries, b = .sealed entries, fun _ => ⟨_, rfl⟩, fun h => sound_record h _,
      fun h => sound_record h _, ?_⟩
    rintro _ ⟨entries, rfl⟩
    trivial
  | strict =>
    refine ⟨fun _ => True, fun _ => trivial, fun _ => trivial, fun {buffer marker tree} _ => ?_,
      fun _ => trivial⟩
    simp only [ofName, Engine.strict]
    split
    · exact ⟨_, rfl⟩
    · split
      · exact ⟨_, rfl⟩
      · exact sound_concat ..

structure State.Owned (own : Tree → Prop) (s : State) : Prop where
  buffer : own s.buffer
  outer : ∀ block ∈ s.blocks, own block.outer

variable {own : Tree → Prop} {options : Options} {buffer tree : Tree}

theorem Engine.Owns.add (h : engine.Owns own) (hb : own buffer) (file : String) (tag : Tag)
    (tree : Tree) : Sound own (engine.add file tag buffer tree) := by
  have : Sound own (engine.expression buffer tag.marker tree) := h.expression hb
  unfold Engine.add
  revert this
  cases engine.expression buffer tag.marker tree with
  | ok b => exact id
  | error e =>
    rintro ⟨fault, rfl⟩
    exact ⟨_, rfl⟩

theorem source_of_parseCode [CharacterNames] {code : String} {line : Int}
    (h : parseCode file code line = .error e) : ∃ fault, e = .source fault := by
  have := located_of_parseCode h
  cases e with
  | source fault => exact ⟨fault, rfl⟩
  | noSection | notABuffer => cases this

theorem Steps.owned [CharacterNames] (ho : engine.Owns own) (h : s.Owned own)
    (hs : Steps engine file (engine.init options) s token later s') : s'.Owned own := by
  obtain ⟨hb, hblocks⟩ := h
  cases hs with
  | skip => exact ⟨hb, hblocks⟩
  | text ht => exact ⟨(ho.text hb).of_ok ht, hblocks⟩
  | plain _ _ _ ha => exact ⟨(ho.add hb ..).of_ok ha, hblocks⟩
  | opening => exact ⟨ho.init options, List.forall_mem_cons.2 ⟨hb, hblocks⟩⟩
  | middle =>
    obtain ⟨hblock, hblocks⟩ := List.forall_mem_cons.1 hblocks
    exact ⟨ho.init options, List.forall_mem_cons.2 ⟨hblock, hblocks⟩⟩
  | closing _ _ _ hc _ _ ha =>
    obtain ⟨hblock, hblocks⟩ := List.forall_mem_cons.1 hblocks
    subst hc
    exact ⟨(ho.add hblock ..).of_ok ha, hblocks⟩

theorem Fails.source_or [CharacterNames] (ho : engine.Owns own) (h : s.Owned own)
    (hf : Fails engine file s token e) :
    (∃ fault, e = .source fault) ∨
      ∃ block blocks tag tree, s.taken = 0 ∧ s.blocks = block :: blocks ∧ token = .tag tag ∧
        tag.closes ∧ tag.Unreserved ∧
        parseCode file (block.extend s.buffer tag).source block.opening.line = .ok tree ∧
        substitute (block.extend s.buffer tag).sections tree = .error e := by
  obtain ⟨hb, hblocks⟩ := h
  cases hf with
  | text ht => exact .inl ((ho.text hb).of_error ht)
  | plainTree _ _ ha => exact .inl ((ho.add hb ..).of_error ha)
  | blockTree _ _ hc _ _ ha =>
    subst hc
    exact .inl ((ho.add (hblocks _ List.mem_cons_self) ..).of_error ha)
  | plainCode _ hp | blockCode _ _ _ hp => exact .inl (source_of_parseCode hp)
  | reserved | markedMiddle | middleOutside | closingOutside | markedClosing =>
    exact .inl ⟨_, rfl⟩
  | noSection hk hu he hc hp hs =>
    subst hc
    exact .inr ⟨_, _, _, _, rfl, rfl, rfl, ⟨hk, he⟩, hu, hp, hs⟩

theorem owned_of_run [CharacterNames] (ho : engine.Owns own)
    (hr : engine.run options.file (engine.init options) { buffer := engine.init options } now
      later = .ok s) : s.Owned own :=
  run_induction (P := fun s _ => s.Owned own) (fun h hs => hs.owned ho h)
    ⟨ho.init options, by nofun⟩ hr

theorem source_or_of_run [CharacterNames] (ho : engine.Owns own)
    (hc : ∀ tag ∈ tagsOf (now ++ later), tag.Classified)
    (hr : engine.run options.file (engine.init options) { buffer := engine.init options } now
      later = .error e) : (∃ fault, e = .source fault) ∨ ∃ key, e = .noSection key ∧
      ∃ spine ∈ Cursor.ends {} now, spine.fold.isSome ∧ reservedName ∈ Code.names spine.head := by
  obtain ⟨before, token, more, s, rfl, hs, hf⟩ := run_eq_error hr
  obtain h | ⟨block, blocks, tag, tree, ht, hb, rfl, hcl, hu, hp, hsub⟩ :=
    hf.source_or ho (owned_of_run ho hs)
  · exact .inl h
  · obtain ⟨spine, closed, key, hcloses, hover, he, hends⟩ :=
      exists_overreaches hs ht hb hcl hu hp hsub
    rw [List.append_assoc] at hc
    have hname : reservedName ∈ Code.names spine.head := by
      by_contra hname
      exact Spine.not_overreaches hcloses.proper
        (fun tag htag => hc tag (hcloses.tags_sublist.subset htag)) hcloses.unreserved.2 hname hover
    refine .inr ⟨key, he, spine, hends more, ?_, hname⟩
    by_contra hfold
    exact Spine.unreserved_head hcloses.unreserved.1 (by simpa using hfold) hname

/--
The reserved name in a tag is refused wherever the tag stands and whatever it is, but for the tag of
a fold. All that can be found before is another fault of the source, or a section that is asked for
by the code of a fold in front.
-/
theorem refused_of_reserved [CharacterNames] {source : String}
    (ht : ∀ tokens, tokenize source options.line options.trim = .ok tokens →
      tokens = before ++ .tag tag :: later)
    (hu : ¬ tag.Unreserved) (hf : ¬ Folds before tag) :
    (∀ engine artifact, compile engine options source ≠ .ok artifact) ∧
    ∀ name, ∃ e, compile (Engine.ofName name) options source = .error e ∧
      ((∃ fault, e = .source fault) ∨ ∃ key, e = .noSection key ∧
        ∃ spine ∈ Cursor.ends {} before,
          spine.fold.isSome ∧ reservedName ∈ Code.names spine.head) := by
  cases hsplit : tokenize source options.line options.trim with
  | error fault =>
    simp only [compile_eq_error hsplit]
    exact ⟨nofun, fun _ => ⟨_, rfl, .inl ⟨_, rfl⟩⟩⟩
  | ok tokens =>
    obtain rfl := ht tokens hsplit
    -- Whatever the engine is, a run that comes as far as to the tag ends there.
    have hstops (engine : Engine) : compile engine options source =
        engine.run options.file (engine.init options) { buffer := engine.init options } before
          (.tag tag :: later) >>= fun s =>
            .error (fault options.file tag.line (.reserved tag.marker tag.code)) := by
      rw [compile_eq hsplit, compileTokens_of_reserved hu hf]
    refine ⟨fun engine artifact h => ?_, fun name => ?_⟩
    · rw [hstops, bind_eq_ok] at h
      obtain ⟨_, -, h⟩ := h
      cases h
    · rw [hstops]
      cases hr : (Engine.ofName name).run options.file ((Engine.ofName name).init options)
          { buffer := (Engine.ofName name).init options } before (.tag tag :: later) with
      | ok s => exact ⟨_, rfl, .inl ⟨_, rfl⟩⟩
      | error e =>
        obtain ⟨own, ho⟩ := Engine.exists_owns name
        exact ⟨e, rfl, source_or_of_run ho (classified_of_tokenize hsplit) hr⟩

theorem refused_of_reserved_middle :
    let source := "<%= case x do %>\n<% 1 -> %>A<% __EEX__(0) -> %>B<% end %>"
    let before := [.tag ⟨.opening, 1, "=", " case x do "⟩, .text 1 "\n",
      .tag ⟨.middle, 2, "", " 1 -> "⟩, .text 2 "A"]
    let tag : Tag := ⟨.middle, 2, "", " __EEX__(0) -> "⟩
    let later := [.text 2 "B", .tag ⟨.closing, 2, "", " end "⟩]
    tokenize source 1 false = .ok (before ++ .tag tag :: later) ∧
    ¬ tag.Unreserved ∧ ¬ Folds before tag ∧
    (∀ engine artifact, compile engine {} source ≠ .ok artifact) ∧
    ∃ fault, compile Engine.recording {} source = .error (.source fault) := by
  intro source before tag later
  have ht : tokenize source 1 false = .ok (before ++ .tag tag :: later) := by decide +kernel
  have hu : ¬ tag.Unreserved := by decide +kernel
  have hf : ¬ Folds before tag := by decide +kernel
  obtain ⟨hno, hfaults⟩ := @refused_of_reserved before later tag {} _ source
    (fun _ h => Except.ok.inj (h.symm.trans ht)) hu hf
  refine ⟨ht, hu, hf, hno, ?_⟩
  obtain ⟨e, he, ⟨fault, rfl⟩ | ⟨key, -, spine, hends, -⟩⟩ := hfaults .recording
  · exact ⟨fault, he⟩
  · -- No block ends in front of the tag.
    have hnone : Cursor.ends {} before = [] := by rfl
    rw [hnone] at hends
    cases hends

theorem not_refused_of_fold :
    let source := "<%= case x do %><% __EEX__(0) -> %>A<% end %>"
    let tag : Tag := ⟨.middle, 1, "", " __EEX__(0) -> "⟩
    .tag tag ∈ (tokenize source 1 false).toOption.getD [] ∧ ¬ tag.Unreserved ∧
      ∃ artifact, compile Engine.smart {} source = .ok artifact := by
  refine ⟨by decide +kernel, by decide +kernel, ?_⟩
  rw [← isSome_toOption]
  decide +kernel

end EmbeddedTemplate.Template
