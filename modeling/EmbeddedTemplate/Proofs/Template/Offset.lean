import EmbeddedTemplate.Proofs.Code.Offset
import EmbeddedTemplate.Proofs.Template.Assigns
import EmbeddedTemplate.Proofs.Template.Lines
import EmbeddedTemplate.Proofs.Template.Texts
import EmbeddedTemplate.Proofs.Template.Writing

namespace EmbeddedTemplate

def Fault.offset (k : Int) : Fault → Fault
  | .source fault => .source { fault with line := fault.line.map (· + k) }
  | other => other

def ScanFault.offset (k : Int) (fault : ScanFault) : ScanFault :=
  { fault with line := fault.line + k }

namespace Template

open EmbeddedTemplate.Tree

def offsetChange (k : Int) : Change where
  line l := l + k
  tree := Tree.offset k
  fault := Fault.offset k

variable (k : Int)

def Piece.offset : Piece → Piece
  | .text l cs => .text (l + k) cs
  | .quotation l cs => .quotation (l + k) cs
  | .tag l m cs => .tag (l + k) m cs

def Pieces.offset (p : Pieces) : Pieces := ⟨p.pieces.map (Piece.offset k), p.unclosed.map (· + k)⟩

namespace Piece

theorem read_offset (line : Int) (cs : List Char) :
    read (line + k) cs = (read line cs).map fun r => (r.1.offset k, r.2) := by
  unfold read
  split
  · rfl
  · simp [Function.comp_def, offset]
  · split <;> simp [Function.comp_def, offset]
  · rfl

theorem consText_offset (line : Int) (c : Char) (ps : List Piece) :
    consText (line + k) c (ps.map (offset k)) = (consText line c ps).map (offset k) := by
  obtain _ | ⟨_ | _ | _, _⟩ := ps <;> rfl

theorem scan_offset (taken : Nat) (line : Int) (cs : List Char) :
    scan taken (line + k) cs = (scan taken line cs).offset k := by
  fun_induction scan taken line cs with
  | case1 taken line => cases taken <;> rfl
  | case2 taken line c cs ih => rw [scan, Code.Lexed.lineAfter_offset, ih]
  | case3 line cs hr =>
    rw [scan, read_offset, hr]
    rfl
  | case4 line cs piece n hr rest ih =>
    rw [scan, read_offset, hr]
    simp only [Option.map_some, ih]
    rfl
  | case5 line c cs hne rest ih =>
    have hne more (h : c :: cs = '<' :: '%' :: more) : False :=
      hne more (List.cons.inj h).1 (List.cons.inj h).2
    rw [scan_cons hne, Code.Lexed.lineAfter_offset, ih]
    exact congrArg (Pieces.mk · _) (consText_offset ..)

theorem endsLine_offset (ps : List Piece) : endsLine (ps.map (offset k)) = endsLine ps := by
  obtain _ | ⟨_ | _ | _, _⟩ := ps <;> simp [endsLine, offset]

theorem startsAlone_offset (blank : Bool) (ps : List Piece) :
    startsAlone blank (ps.map (offset k)) = startsAlone blank ps := by
  obtain _ | ⟨_ | _ | _, _⟩ := ps <;> simp [startsAlone, offset, endsLine_offset]

theorem dropLine_offset (line : Int) (cs : List Char) :
    dropLine (line + k) cs = ((dropLine line cs).1 + k, (dropLine line cs).2) := by
  unfold dropLine
  split
  · rfl
  · exact congrArg (·, _) (Int.add_right_comm line k 1)

theorem trim_offset (blank alone : Bool) (ps : List Piece) :
    trim blank alone (ps.map (offset k)) = (trim blank alone ps).map (offset k) := by
  induction ps generalizing blank alone with
  | nil => rfl
  | cons p ps ih =>
    cases p with
    | text line cs =>
      simp only [List.map_cons, offset, trim, startsAlone_offset, ih, dropLine_offset]
      cases alone <;> rfl
    | quotation line cs =>
      simp only [List.map_cons, offset, trim, ih]
    | tag line m code =>
      simp only [List.map_cons, offset, trim, endsLine_offset, ih]

end Piece

theorem Tag.ofCode_offset (line : Int) (marker code : String) :
    Tag.ofCode (line + k) marker code =
      mapBoth (ScanFault.offset k) (offsetChange k).tag (Tag.ofCode line marker code) := by
  unfold Tag.ofCode
  dsimp only
  split <;> rfl

def Pending.Below (p q : Pending) : Prop := q.chars = p.chars ∧ (p.chars ≠ [] → q.line = p.line + k)

variable {k} {p q : Pending}

theorem Pending.below_empty : Pending.Below k .empty .empty := ⟨rfl, fun h => absurd rfl h⟩

theorem Pending.Below.add (h : p.Below k q) (line : Int) (cs : List Char) :
    (p.add line cs).Below k (q.add (line + k) cs) := by
  obtain ⟨hc, hl⟩ := h
  unfold Pending.add
  rw [hc]
  split
  · exact ⟨rfl, fun _ => rfl⟩
  · next hp => exact ⟨rfl, fun _ => hl (by simpa using hp)⟩

theorem Pending.Below.toTokens (h : p.Below k q) :
    q.toTokens = p.toTokens.map (offsetChange k).token := by
  obtain ⟨hc, hl⟩ := h
  unfold Pending.toTokens
  rw [hc]
  split
  · rfl
  · next hp =>
    rw [hl (by simpa using hp)]
    rfl

theorem Token.ofPieces_offset (h : p.Below k q) (ps : List Piece) :
    Token.ofPieces q (ps.map (Piece.offset k)) =
      mapBoth (ScanFault.offset k) (List.map (offsetChange k).token) (Token.ofPieces p ps) := by
  induction ps generalizing p q with
  | nil => exact congrArg Except.ok h.toTokens
  | cons piece ps ih =>
    cases piece with
    | text line cs => exact ih (h.add line cs)
    | quotation line cs => exact ih (h.add line _)
    | tag line marker code =>
      simp only [List.map_cons, Piece.offset, Token.ofPieces, Tag.ofCode_offset,
        ih Pending.below_empty, h.toTokens]
      split
      · exact ih h
      · exact mapBoth_bind fun tag => mapBoth_bind fun tokens => by
          simp [mapBoth, pure_eq_ok, Change.token]

variable (k)

theorem tokenize_offset (source : String) (line : Int) (trim : Bool) :
    tokenize source (line + k) trim = mapBoth (ScanFault.offset k)
      (List.map (offsetChange k).token) (tokenize source line trim) := by
  have hs : Pieces.ofSource source (line + k) = (Pieces.ofSource source line).offset k :=
    Piece.scan_offset k 0 line source.toList
  unfold tokenize
  rw [hs]
  obtain ⟨pieces, unclosed⟩ := Pieces.ofSource source line
  have hp : (if trim then Piece.trim true false (pieces.map (Piece.offset k))
        else pieces.map (Piece.offset k)) =
      (if trim then Piece.trim true false pieces else pieces).map (Piece.offset k) := by
    cases trim with
    | false => rfl
    | true => exact Piece.trim_offset k true false pieces
  simp only [Pieces.offset, hp, Token.ofPieces_offset Pending.below_empty]
  exact mapBoth_bind fun tokens => by cases unclosed <;> rfl

theorem locateFault_offset (file : String) (line : Int) (e : Fault) :
    locateFault file (line + k) (e.offset k) = (locateFault file line e).offset k := by
  cases e with
  | source fault =>
    obtain ⟨scope, cause, file' | _, line' | _⟩ := fault <;> rfl
  | noSection | notABuffer => rfl

namespace Engine

theorem fetchAssign_offset (name : String) (note : Annotation) :
    fetchAssign name (offsetNote k note) = (fetchAssign name note).offset k := by
  simp [fetchAssign]

theorem offset_eq_ref {t : Tree} {name : String} {note : Annotation}
    (h : t.offset k = .ref (.str name) note) : ∃ note, t = .ref (.str name) note := by
  cases t with
  | ref target n =>
    obtain ⟨ht, -⟩ := Tree.ref.inj h
    exact ⟨n, by rw [mapParts_eq_str.1 ht]⟩
  | _ => cases h

theorem assign?_offset (t : Tree) :
    assign? (t.offset k) = (assign? t).map fun a => (a.1, offsetNote k a.2) := by
  cases ha : assign? t with
  | some a =>
    obtain ⟨inner, rfl⟩ := assign?_eq_some ha
    rfl
  | none =>
    cases ha' : assign? (t.offset k) with
    | none => rfl
    | some a =>
      obtain ⟨inner, heq⟩ := assign?_eq_some ha'
      cases t with
      | call target n args =>
        rw [offset_call] at heq
        obtain ⟨ht, -, hargs⟩ := Tree.call.inj heq
        obtain ⟨u, rfl, hu⟩ := List.map_eq_singleton_iff.1 hargs
        obtain ⟨note, rfl⟩ := offset_eq_ref k hu
        rw [mapParts_eq_str.1 ht] at ha
        cases ha
      | _ => cases heq

mutual

theorem expandAssigns_offset (t : Tree) :
    expandAssigns (t.offset k) = (expandAssigns t).offset k := by
  cases t with
  | call target note args =>
    have ha := assign?_offset k (.call target note args)
    rw [offset_call] at ha ⊢
    rw [expandAssigns_call, expandAssigns_call, ha]
    cases assign? (.call target note args) with
    | some a => exact fetchAssign_offset k a.1 a.2
    | none =>
      simp [expandAssigns_offset target, expandAllAssigns_offset args]
  | ref target note => exact congrArg (Tree.ref · _) (expandAssigns_offset target)
  | pair left right =>
    exact congrArg₂ Tree.pair (expandAssigns_offset left) (expandAssigns_offset right)
  | list items =>
    simp [expandAssigns, expandAllAssigns_offset items]
  | _ => rfl

theorem expandAllAssigns_offset (ts : List Tree) :
    expandAllAssigns (ts.map (Tree.offset k)) = (expandAllAssigns ts).map (Tree.offset k) := by
  cases ts with
  | nil => rfl
  | cons t ts =>
    simp [expandAllAssigns, expandAssigns_offset t, expandAllAssigns_offset ts]

end

/-- The engine makes of what stands further down what it makes of it, further down. -/
structure IgnoresLines (engine : Engine) : Prop where
  init : ∀ options line, engine.init { options with line } = (engine.init options).offset k
  text : ∀ buffer content, engine.text (buffer.offset k) content =
    mapBoth (Fault.offset k) (Tree.offset k) (engine.text buffer content)
  expression : ∀ buffer marker tree, engine.expression (buffer.offset k) marker (tree.offset k) =
    mapBoth (Fault.offset k) (Tree.offset k) (engine.expression buffer marker tree)
  body : ∀ buffer, engine.body (buffer.offset k) =
    mapBoth (Fault.offset k) (Tree.offset k) (engine.body buffer)

theorem ignoresLines_concat : concat.IgnoresLines k where
  init _ _ := rfl
  text buffer content := by simp [concat, concatenation, mapBoth]
  expression buffer marker tree := by
    simp only [concat]
    split
    · simp [concatenation, textOf, mapBoth]
    · split
      · simp [evaluation, mapBoth]
      · simp [mapBoth, Fault.offset]
  body _ := rfl

theorem ignoresLines_smart : smart.IgnoresLines k :=
  { ignoresLines_concat k with
    expression := fun buffer marker tree => by
      simp only [smart, expandAssigns_offset]
      exact (ignoresLines_concat k).expression buffer marker (expandAssigns tree) }

theorem ignoresLines_strict : strict.IgnoresLines k :=
  { ignoresLines_concat k with
    expression := fun buffer marker tree => by
      simp only [strict]
      split
      · simp [mapBoth, Fault.offset]
      · split
        · rfl
        · exact (ignoresLines_concat k).expression buffer marker tree }

theorem record_offset (buffer : Tree) (entry : List Tree) :
    record (buffer.offset k) (entry.map (Tree.offset k)) =
      mapBoth (Fault.offset k) (Tree.offset k) (record buffer entry) := by
  have h : record (buffer.offset k) (mapAllParts (offsetNote k) id entry) =
      (record buffer entry).map (Tree.offset k) := record_mapParts (fun _ _ => rfl) buffer entry
  rw [← mapAllParts_offset, h]
  cases buffer <;> rfl

theorem ignoresLines_recording : recording.IgnoresLines k where
  init _ _ := rfl
  text buffer content := record_offset k buffer [.str "text", .str content]
  expression buffer marker tree := record_offset k buffer [.str "expr", .str marker, tree]
  body buffer := by cases buffer <;> rfl

theorem ignoresLines_ofName {name : EngineName} (hn : name ≠ .indenting) :
    (ofName name).IgnoresLines k := by
  cases name with
  | smart => exact ignoresLines_smart k
  | concat => exact ignoresLines_concat k
  | recording => exact ignoresLines_recording k
  | strict => exact ignoresLines_strict k
  | indenting => exact absurd rfl hn

end Engine

section

variable {k} {file : String} {engine : Engine}

theorem parseCode_offset [CharacterNames] (code : String) (line : Int) :
    parseCode file code (line + k) =
    (offsetChange k).outcome (Tree.offset k) (parseCode file code line) := by
  unfold parseCode
  rw [Code.parse_offset]
  cases Code.parse code line <;> rfl

theorem Engine.IgnoresLines.add (h : engine.IgnoresLines k) (tag : Tag) (buffer tree : Tree) :
    engine.add file ((offsetChange k).tag tag) (buffer.offset k) (tree.offset k) =
      (offsetChange k).outcome (Tree.offset k) (engine.add file tag buffer tree) := by
  unfold Engine.add
  change Except.mapError (locateFault file (tag.line + k)) (engine.expression _ tag.marker _) = _
  rw [h.expression]
  cases engine.expression buffer tag.marker tree with
  | ok t => rfl
  | error e => exact congrArg Except.error (locateFault_offset k file tag.line e)

theorem substitute_offset (sections : List Tree) (tree : Tree) :
    substitute (sections.map (Tree.offset k)) (tree.offset k) =
      (offsetChange k).outcome (Tree.offset k) (substitute sections tree) := by
  refine (substitute_mapParts sections tree).trans ?_
  cases h : substitute sections tree with
  | ok t => rfl
  | error e =>
    obtain ⟨key, rfl⟩ := noSection_of_substitute tree h
    rfl

theorem Engine.IgnoresLines.carries [CharacterNames] (h : engine.IgnoresLines k) :
    (offsetChange k).Carries file engine engine where
  texts := keepsGaps_id
  distance m n := show m + k - (n + k) = m - n by omega
  fault _ _ := rfl
  text := h.text
  tag := Change.ofTag_of_parts parseCode_offset h.add
  block := Change.ofBlock_of_parts parseCode_offset h.add substitute_offset

end

variable {name : EngineName}

/--
A template whose first line has a number higher by `k` has the same artifact with all lines higher
by `k`, or the same fault on a line higher by `k`.
-/
theorem compile_offset [CharacterNames] (hn : name ≠ .indenting) (options : Options)
    (source : String) :
    compile (Engine.ofName name) { options with line := options.line + k } source =
      mapBoth (Fault.offset k) (Tree.offset k) (compile (Engine.ofName name) options source) := by
  have h := Engine.ignoresLines_ofName k hn
  let below : Options := { options with line := options.line + k }
  have ht : tokenize source below.line below.trim = _ :=
    tokenize_offset k source options.line options.trim
  cases hs : tokenize source options.line options.trim with
  | error e =>
    rw [hs] at ht
    rw [compile_eq_error hs, compile_eq_error ht]
    rfl
  | ok tokens =>
    rw [hs] at ht
    rw [compile_eq hs, compile_eq ht]
    have hi : (Engine.ofName name).init below = ((Engine.ofName name).init options).offset k :=
      h.init options below.line
    exact h.carries.compileTokens (show below.file = options.file from rfl) hi h.body tokens

theorem compile_offset_block :
    let source := "<%= case a do %>\n<% 1 -> %>A<%= @b %><% end %>"
    EngineName.smart ≠ .indenting ∧ ∃ artifact,
      compile Engine.smart { line := 0 } source = .ok artifact ∧
      0 ∈ artifact.lines ∧ 1 ∈ artifact.lines ∧
      compile Engine.smart { line := 7 } source = .ok (artifact.offset 7) := by
  intro source
  have hn : EngineName.smart ≠ .indenting := by decide
  have hsome : (compile Engine.smart { line := 0 } source).toOption.any
      (fun t => 0 ∈ t.lines ∧ 1 ∈ t.lines) := by decide +kernel
  obtain ⟨artifact, ha, hl⟩ := (Option.any_eq_true ..).1 hsome
  rw [toOption_eq_some] at ha
  obtain ⟨hzero, hone⟩ := of_decide_eq_true hl
  have hmove : compile Engine.smart { line := 7 } source = mapBoth (Fault.offset 7)
      (Tree.offset 7) (compile Engine.smart { line := 0 } source) :=
    compile_offset 7 hn { line := 0 } source
  rw [ha] at hmove
  exact ⟨hn, artifact, ha, hzero, hone, hmove⟩

end Template

end EmbeddedTemplate
