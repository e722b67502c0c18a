import EmbeddedTemplate.Proofs.Code.Mentions
import EmbeddedTemplate.Proofs.Template.Change
import EmbeddedTemplate.Proofs.Template.Substitute

namespace EmbeddedTemplate

/-- The entry of a record, with another text if it is that of a text. -/
def retext (r : String → String) : List Tree → List Tree
  | .str kind :: .str s :: rest => .str kind :: .str (if kind = "text" then r s else s) :: rest
  | entry => entry

def Tree.mapTexts (r : String → String) : Tree → Tree := mapParts id (retext r)

theorem retext_append_sealed (r : String → String) (entries : List Tree) (entry : List Tree) :
    retext r (entries ++ [.sealed entry]) = retext r entries ++ [.sealed entry] := by
  rcases entries with _ | ⟨t, _ | ⟨u, ts⟩⟩
  · rfl
  · cases t <;> rfl
  · cases t with
    | str kind => cases u <;> rfl
    | _ => rfl

namespace Template

open EmbeddedTemplate.Tree

def Token.mapText (r : String → String) : Token → Token
  | .text line content => .text line (r content)
  | .tag t => .tag t

variable {r : String → String} {file : String} {buffer buffer' tree : Tree} {tag : Tag}
variable {s : State} {tokens : List Token}

namespace Engine

section

variable {note : Annotation → Annotation} {entry : List Tree → List Tree}

theorem record_mapParts (hentry : ∀ ts e, entry (ts ++ [.sealed e]) = entry ts ++ [.sealed e])
    (buffer : Tree) (e : List Tree) :
    record (mapParts note entry buffer) (entry (mapAllParts note entry e)) =
      (record buffer e).map (mapParts note entry) := by
  cases buffer with
  | «sealed» entries =>
    simp only [mapParts, record, Except.map, mapAllParts_eq_map, List.map_append, List.map_cons,
      List.map_nil, hentry]
  | _ => rfl

end

theorem text_mapTexts (r : String → String) (buffer : Tree) (content : String) :
    recording.text (buffer.mapTexts r) (r content) =
      (recording.text buffer content).map (Tree.mapTexts r) :=
  record_mapParts (retext_append_sealed r) buffer [.str "text", .str content]

theorem expression_mapTexts (r : String → String) (buffer : Tree) (marker : String) (tree : Tree) :
    recording.expression (buffer.mapTexts r) marker (tree.mapTexts r) =
      (recording.expression buffer marker tree).map (Tree.mapTexts r) :=
  record_mapParts (retext_append_sealed r) buffer [.str "expr", .str marker, tree]

theorem add_mapTexts (r : String → String) (file : String) (tag : Tag) (buffer tree : Tree) :
    recording.add file tag (buffer.mapTexts r) (tree.mapTexts r) =
      (recording.add file tag buffer tree).map (Tree.mapTexts r) := by
  rw [add, expression_mapTexts, add]
  cases recording.expression buffer tag.marker tree <;> rfl

end Engine

theorem parseCode_mapTexts [CharacterNames] (r : String → String) (file code : String)
    (line : Int) :
    parseCode file code line = (parseCode file code line).map (Tree.mapTexts r) := by
  cases h : parseCode file code line with
  | error e => rfl
  | ok tree =>
    exact congrArg Except.ok (Code.mentions_of_parse (parseCode_eq_ok.1 h)).1.mapParts_id.symm

def textChange (r : String → String) : Change := { text := r, tree := Tree.mapTexts r }

theorem carries_textChange [CharacterNames] (hr : KeepsGaps r) :
    (textChange r).Carries file Engine.recording Engine.recording where
  texts := hr
  distance _ _ := rfl
  fault _ _ := rfl
  text buffer content :=
    (Engine.text_mapTexts r buffer content).trans (Change.outcome_eq_map rfl).symm
  tag := Change.ofTag_of_parts
    (fun code line => (parseCode_mapTexts r file code line).trans (Change.outcome_eq_map rfl).symm)
    fun tag buffer tree =>
      (Engine.add_mapTexts r file tag buffer tree).trans (Change.outcome_eq_map rfl).symm
  block := Change.ofBlock_of_parts
    (fun code line => (parseCode_mapTexts r file code line).trans (Change.outcome_eq_map rfl).symm)
    (fun tag buffer tree =>
      (Engine.add_mapTexts r file tag buffer tree).trans (Change.outcome_eq_map rfl).symm)
    fun sections tree => (substitute_mapParts sections tree).trans (Change.outcome_eq_map rfl).symm

def IsRecord (t : Tree) : Prop := ∃ entries : List (List Tree), t = .sealed (entries.map .sealed)

theorem isRecord_of_record {e : List Tree} (hb : IsRecord buffer)
    (h : Engine.record buffer e = .ok buffer') : IsRecord buffer' := by
  obtain ⟨entries, rfl⟩ := hb
  cases h
  exact ⟨entries ++ [e], by simp⟩

theorem isRecord_of_add (hb : IsRecord buffer)
    (h : Engine.recording.add file tag buffer tree = .ok buffer') : IsRecord buffer' :=
  isRecord_of_record hb (mapError_eq_ok.1 h)

def State.Recorded (s : State) : Prop := IsRecord s.buffer ∧ ∀ b ∈ s.blocks, IsRecord b.outer

theorem Steps.recorded [CharacterNames] {init : Tree} {token : Token} {later : List Token}
    {s' : State}
    (hi : IsRecord init) (h : s.Recorded)
    (hs : Steps Engine.recording file init s token later s') : s'.Recorded := by
  obtain ⟨hb, ho⟩ := h
  cases hs with
  | skip => exact ⟨hb, ho⟩
  | text ht => exact ⟨isRecord_of_record hb ht, ho⟩
  | plain _ _ _ ha => exact ⟨isRecord_of_add hb ha, ho⟩
  | opening => exact ⟨hi, List.forall_mem_cons.2 ⟨hb, ho⟩⟩
  | middle => exact ⟨hi, List.forall_mem_cons.2 (List.forall_mem_cons.1 ho)⟩
  | closing _ _ _ hc _ _ ha =>
    obtain ⟨hob, ho⟩ := List.forall_mem_cons.1 ho
    subst hc
    exact ⟨isRecord_of_add hob ha, ho⟩

theorem body_mapTexts (hb : IsRecord buffer) : Engine.recording.body (buffer.mapTexts r) =
    (Engine.recording.body buffer).map (Tree.mapTexts r) := by
  obtain ⟨entries, rfl⟩ := hb
  have : retext r (mapAllParts id (retext r) (entries.map .sealed)) =
      mapAllParts id (retext r) (entries.map .sealed) := by
    cases entries <;> rfl
  simp only [Tree.mapTexts, mapParts, this, Engine.recording, Except.map]

/--
With other texts for those that are not blank, a run gives the same record with the other texts in
it, and the same place, or the same fault.
-/
theorem generate_mapTexts [CharacterNames] (hr : KeepsGaps r) (options : Options)
    (tokens : List Token) :
    let run := Engine.recording.generate options.file (Engine.recording.init options)
      { buffer := Engine.recording.init options }
    run (tokens.map (Token.mapText r)) =
      (run tokens).map fun result => (result.1.mapTexts r, result.2) := by
  intro run
  have htokens : tokens.map (Token.mapText r) = tokens.map (textChange r).token :=
    List.map_congr_left fun token _ => by cases token <;> rfl
  have hb s (hs : Engine.recording.run options.file (Engine.recording.init options)
      { buffer := Engine.recording.init options } tokens [] = .ok s) :
      Engine.recording.body (s.buffer.mapTexts r) =
        (textChange r).outcome (Tree.mapTexts r) (Engine.recording.body s.buffer) := by
    have hinit : IsRecord (Engine.recording.init options) := ⟨[], rfl⟩
    have hrec : s.Recorded := run_induction (P := fun s _ => s.Recorded)
      (fun h hs => hs.recorded hinit h) ⟨hinit, List.forall_mem_nil _⟩ hs
    rw [body_mapTexts hrec.1, Change.outcome_eq_map rfl]
  have := (carries_textChange hr).generate (Engine.recording.init options)
    { buffer := Engine.recording.init options } tokens hb
  rw [Change.outcome_eq_map rfl] at this
  rw [htokens]
  exact this

theorem generate_mapTexts_nested :
    let r (s : String) := if IsGap s then s else s ++ "!"
    let tokens : List Token :=
      [.tag ⟨.opening, 1, "=", " case x do "⟩, .text 1 "\n", .tag ⟨.middle, 2, "", " \"A\" -> "⟩,
        .text 2 "A", .tag ⟨.opening, 2, "", " if y do "⟩, .text 2 "B",
        .tag ⟨.closing, 3, "", " end "⟩, .tag ⟨.closing, 4, "", " end "⟩]
    let run := Engine.recording.generate "nofile" (.sealed []) { buffer := .sealed [] }
    KeepsGaps r ∧ ∃ artifact, run tokens = .ok (artifact, 8) ∧
      run (tokens.map (Token.mapText r)) = .ok (artifact.mapTexts r, 8) := by
  intro r tokens run
  have hr : KeepsGaps r := by
    refine ⟨fun s hs => if_pos hs, fun s hs => ?_⟩
    rw [show r s = s ++ "!" from if_neg hs]
    simp [IsGap, Text.isGap]
  have hmap : run (tokens.map (Token.mapText r)) =
      (run tokens).map fun result => (result.1.mapTexts r, result.2) :=
    generate_mapTexts hr {} tokens
  have hrun : (run tokens).toOption.any (·.2 = 8) := by decide +kernel
  obtain ⟨⟨artifact, position⟩, ha, hp⟩ := (Option.any_eq_true ..).1 hrun
  obtain rfl : position = 8 := of_decide_eq_true hp
  rw [toOption_eq_some] at ha
  exact ⟨hr, artifact, ha, by rw [hmap, ha]; rfl⟩

end Template

end EmbeddedTemplate
