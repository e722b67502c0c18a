import EmbeddedTemplate.Proofs.Outcome
import EmbeddedTemplate.Template.Compile

/-!
What one step of the compiler does, and how it runs over the start of a list of tokens. Nothing
below looks into `step` again: a step that succeeds is one of `Steps`, a step that fails one of
`Fails`.
-/

namespace EmbeddedTemplate.Template

namespace Engine

def step [CharacterNames] (engine : Engine) (file : String) (init : Tree) :
    State → Token → List Token → Except Fault State :=
  Template.step (fun _ => pure ()) engine file init

def finish (engine : Engine) (file : String) : State → Except Fault (Tree × Nat) :=
  Template.finish (fun _ => pure ()) engine file

def generate [CharacterNames] (engine : Engine) (file : String) (init : Tree) :
    State → List Token → Except Fault (Tree × Nat) :=
  Template.generate (fun _ => pure ()) engine file init

def add (engine : Engine) (file : String) (tag : Tag) (buffer tree : Tree) : Except Fault Tree :=
  (engine.expression buffer tag.marker tree).mapError (locateFault file tag.line)

/-- The state after the tokens `now`, which the tokens `later` follow. -/
def run [CharacterNames] (engine : Engine) (file : String) (init : Tree) :
    State → (now later : List Token) → Except Fault State
  | s, [], _ => .ok s
  | s, token :: now, later => do
    run engine file init (← engine.step file init s token (now ++ later)) now later

end Engine

def Tag.Unreserved (tag : Tag) : Prop := reservedName ∉ Code.names tag.code

instance (tag : Tag) : Decidable tag.Unreserved := inferInstanceAs (Decidable (¬ _))

inductive Steps [CharacterNames] (engine : Engine) (file : String) (init : Tree) :
    State → Token → List Token → State → Prop
  | skip {taken position buffer blocks token later} :
      Steps engine file init ⟨taken + 1, position, buffer, blocks⟩ token later
        ⟨taken, position, buffer, blocks⟩
  | text {position buffer buffer' blocks line content later} :
      engine.text buffer content = .ok buffer' →
      Steps engine file init ⟨0, position, buffer, blocks⟩ (.text line content) later
        ⟨0, position + 1, buffer', blocks⟩
  | plain {position buffer buffer' blocks tag tree later} : tag.kind = .plain → tag.Unreserved →
      parseCode file tag.code tag.line = .ok tree → engine.add file tag buffer tree = .ok buffer' →
      Steps engine file init ⟨0, position, buffer, blocks⟩ (.tag tag) later
        ⟨0, position + 1, buffer', blocks⟩
  | opening {position buffer blocks tag ahead later} : tag.kind = .opening → tag.Unreserved →
      lookAhead tag.code tag.line later = ahead →
      Steps engine file init ⟨0, position, buffer, blocks⟩ (.tag tag) later
        ⟨ahead.taken, position + 1 + ahead.taken, init,
          ⟨tag, buffer, ahead.source, ahead.line, []⟩ :: blocks⟩
  | middle {position buffer block blocks tag later} : tag.kind = .middle → tag.Unreserved →
      tag.marker.isEmpty →
      Steps engine file init ⟨0, position, buffer, block :: blocks⟩ (.tag tag) later
        ⟨0, position + 1, init, block.extend buffer tag :: blocks⟩
  | closing {position buffer buffer' block closed blocks tag tree tree' later} :
      tag.kind = .closing → tag.Unreserved → tag.marker.isEmpty →
      block.extend buffer tag = closed →
      parseCode file closed.source closed.opening.line = .ok tree →
      substitute closed.sections tree = .ok tree' →
      engine.add file closed.opening closed.outer tree' = .ok buffer' →
      Steps engine file init ⟨0, position, buffer, block :: blocks⟩ (.tag tag) later
        ⟨0, position + 1, buffer', blocks⟩

inductive Fails [CharacterNames] (engine : Engine) (file : String) : State → Token → Fault → Prop
  | text {position buffer blocks line content e} : engine.text buffer content = .error e →
      Fails engine file ⟨0, position, buffer, blocks⟩ (.text line content) e
  | reserved {position buffer blocks tag} : ¬ tag.Unreserved →
      Fails engine file ⟨0, position, buffer, blocks⟩ (.tag tag)
        (fault file tag.line (.reserved tag.marker tag.code))
  | plainCode {position buffer blocks tag e} : tag.kind = .plain →
      parseCode file tag.code tag.line = .error e →
      Fails engine file ⟨0, position, buffer, blocks⟩ (.tag tag) e
  | plainTree {position buffer blocks tag tree e} : tag.kind = .plain →
      parseCode file tag.code tag.line = .ok tree → engine.add file tag buffer tree = .error e →
      Fails engine file ⟨0, position, buffer, blocks⟩ (.tag tag) e
  | markedMiddle {position buffer blocks tag} : tag.kind = .middle → ¬ tag.marker.isEmpty →
      Fails engine file ⟨0, position, buffer, blocks⟩ (.tag tag)
        (fault file tag.line (.misplacedMarker tag.marker tag.code))
  | middleOutside {position buffer tag} : tag.kind = .middle → tag.marker.isEmpty →
      Fails engine file ⟨0, position, buffer, []⟩ (.tag tag)
        (fault file tag.line (.misplacedTag tag.code))
  | closingOutside {position buffer tag} : tag.kind = .closing →
      Fails engine file ⟨0, position, buffer, []⟩ (.tag tag)
        (fault file tag.line (.misplacedTag tag.code))
  | markedClosing {position buffer block blocks tag} : tag.kind = .closing →
      ¬ tag.marker.isEmpty →
      Fails engine file ⟨0, position, buffer, block :: blocks⟩ (.tag tag)
        (fault file tag.line (.misplacedMarker tag.marker tag.code))
  | blockCode {position buffer block closed blocks tag e} : tag.kind = .closing →
      tag.marker.isEmpty → block.extend buffer tag = closed →
      parseCode file closed.source closed.opening.line = .error e →
      Fails engine file ⟨0, position, buffer, block :: blocks⟩ (.tag tag) e
  | noSection {position buffer block closed blocks tag tree e} : tag.kind = .closing →
      tag.Unreserved → tag.marker.isEmpty → block.extend buffer tag = closed →
      parseCode file closed.source closed.opening.line = .ok tree →
      substitute closed.sections tree = .error e →
      Fails engine file ⟨0, position, buffer, block :: blocks⟩ (.tag tag) e
  | blockTree {position buffer block closed blocks tag tree tree' e} : tag.kind = .closing →
      tag.marker.isEmpty → block.extend buffer tag = closed →
      parseCode file closed.source closed.opening.line = .ok tree →
      substitute closed.sections tree = .ok tree' →
      engine.add file closed.opening closed.outer tree' = .error e →
      Fails engine file ⟨0, position, buffer, block :: blocks⟩ (.tag tag) e

variable {engine : Engine} {file : String} {init : Tree}
variable {position : Nat} {buffer : Tree} {block : OpenBlock} {blocks : List OpenBlock}
variable {tag : Tag} {s s' : State} {token : Token} {now later : List Token}

theorem ofExcept_eq {α : Type} (x : Except Fault α) : (ofExcept x : Except Fault α) = x := by
  cases x <;> rfl

theorem unreserved_iff : (Code.names tag.code).contains reservedName = false ↔ tag.Unreserved := by
  simp [Tag.Unreserved]

theorem finish_eq_ok {artifact : Tree} : engine.finish file s = .ok (artifact, position) ↔
    s.blocks = [] ∧ engine.body s.buffer = .ok artifact ∧ s.position = position := by
  simp only [Engine.finish, Template.finish, ofExcept_eq]
  split
  · next hb =>
    rw [hb]
    refine ⟨?_, by simp⟩
    rintro ⟨⟩
  · next hb =>
    rw [hb]
    simp only [bind_eq_ok, pure_eq_ok]
    grind

theorem finish_eq_error {e : Fault} : engine.finish file s = .error e ↔
    (∃ block blocks, s.blocks = block :: blocks ∧ fault file block.line .unclosedBlock = e) ∨
    s.blocks = [] ∧ engine.body s.buffer = .error e := by
  simp only [Engine.finish, Template.finish, ofExcept_eq]
  split
  · next block blocks hb =>
    rw [hb]
    refine ⟨?_, ?_⟩
    · rintro ⟨⟩
      exact .inl ⟨_, _, rfl, rfl⟩
    · rintro (⟨_, _, ⟨⟩, rfl⟩ | ⟨⟨⟩, _⟩)
      rfl
  · next hb =>
    rw [hb]
    simp [bind_eq_error, pure_eq_ok]

variable [CharacterNames]

theorem parseCode_eq_ok {code : String} {line : Int} {tree : Tree} :
    parseCode file code line = .ok tree ↔ Code.parse code line = .ok tree := mapError_eq_ok

theorem step_reserved (h : ¬ tag.Unreserved) :
    engine.step file init ⟨0, position, buffer, blocks⟩ (.tag tag) later =
      .error (fault file tag.line (.reserved tag.marker tag.code)) := by
  rw [← unreserved_iff, Bool.not_eq_false] at h
  simp only [Engine.step, Template.step, h, if_true]
  rfl

theorem step_plain (hk : tag.kind = .plain) (hr : tag.Unreserved) :
    engine.step file init ⟨0, position, buffer, blocks⟩ (.tag tag) later =
      (do
        let tree ← parseCode file tag.code tag.line
        let buffer ← engine.add file tag buffer tree
        return ⟨0, position + 1, buffer, blocks⟩) := by
  simp only [Engine.step, Template.step, unreserved_iff.2 hr, hk, ofExcept_eq, addExpression,
    Bool.false_eq_true, if_false]
  cases parseCode file tag.code tag.line with
  | error e => rfl
  | ok tree =>
    change Except.bind (Except.bind (engine.add file tag buffer tree) _) _ =
      Except.bind (engine.add file tag buffer tree) _
    cases engine.add file tag buffer tree <;> rfl

theorem step_opening (hk : tag.kind = .opening) (hr : tag.Unreserved) :
    engine.step file init ⟨0, position, buffer, blocks⟩ (.tag tag) later =
      let ahead := lookAhead tag.code tag.line later
      .ok ⟨ahead.taken, position + 1 + ahead.taken, init,
        ⟨tag, buffer, ahead.source, ahead.line, []⟩ :: blocks⟩ := by
  simp only [Engine.step, Template.step, unreserved_iff.2 hr, hk]
  cases (lookAhead tag.code tag.line later).remark? tag.line later <;> rfl

theorem step_markedMiddle (hk : tag.kind = .middle) (hr : tag.Unreserved)
    (hm : tag.marker.isEmpty = false) :
    engine.step file init ⟨0, position, buffer, blocks⟩ (.tag tag) later =
      .error (fault file tag.line (.misplacedMarker tag.marker tag.code)) := by
  simp only [Engine.step, Template.step, unreserved_iff.2 hr, hk, hm]
  rfl

theorem step_middle (hk : tag.kind = .middle) (hr : tag.Unreserved) (hm : tag.marker.isEmpty) :
    engine.step file init ⟨0, position, buffer, block :: blocks⟩ (.tag tag) later =
      .ok ⟨0, position + 1, init, block.extend buffer tag :: blocks⟩ := by
  simp only [Engine.step, Template.step, unreserved_iff.2 hr, hk, hm]
  rfl

theorem step_middle_outside (hk : tag.kind = .middle) (hr : tag.Unreserved)
    (hm : tag.marker.isEmpty) :
    engine.step file init ⟨0, position, buffer, []⟩ (.tag tag) later =
      .error (fault file tag.line (.misplacedTag tag.code)) := by
  simp only [Engine.step, Template.step, unreserved_iff.2 hr, hk, hm]
  rfl

theorem step_closing_outside (hk : tag.kind = .closing) (hr : tag.Unreserved) :
    engine.step file init ⟨0, position, buffer, []⟩ (.tag tag) later =
      .error (fault file tag.line (.misplacedTag tag.code)) := by
  simp only [Engine.step, Template.step, unreserved_iff.2 hr, hk]
  rfl

theorem step_markedClosing (hk : tag.kind = .closing) (hr : tag.Unreserved)
    (hm : tag.marker.isEmpty = false) :
    engine.step file init ⟨0, position, buffer, block :: blocks⟩ (.tag tag) later =
      .error (fault file tag.line (.misplacedMarker tag.marker tag.code)) := by
  simp only [Engine.step, Template.step, unreserved_iff.2 hr, hk, hm]
  rfl

theorem step_closing (hk : tag.kind = .closing) (hr : tag.Unreserved) (hm : tag.marker.isEmpty) :
    engine.step file init ⟨0, position, buffer, block :: blocks⟩ (.tag tag) later =
      (do
        let closed := block.extend buffer tag
        let tree ← parseCode file closed.source closed.opening.line
        let tree ← substitute closed.sections tree
        let buffer ← engine.add file closed.opening closed.outer tree
        return ⟨0, position + 1, buffer, blocks⟩) := by
  simp only [Engine.step, Template.step, unreserved_iff.2 hr, hk, hm, ofExcept_eq, addExpression,
    Bool.false_eq_true, Bool.not_true, if_false]
  generalize block.extend buffer tag = closed
  cases parseCode file closed.source closed.opening.line with
  | error e => rfl
  | ok tree =>
    change Except.bind (substitute closed.sections tree) _ =
      Except.bind (substitute closed.sections tree) _
    cases substitute closed.sections tree with
    | error e => rfl
    | ok tree =>
      change Except.bind (Except.bind (engine.add file closed.opening closed.outer tree) _) _ =
        Except.bind (engine.add file closed.opening closed.outer tree) _
      cases engine.add file closed.opening closed.outer tree <;> rfl

theorem step_cases (engine : Engine) (file : String) (init : Tree) (s : State) (token : Token)
    (later : List Token) :
    (∃ s', engine.step file init s token later = .ok s' ∧
      Steps engine file init s token later s') ∨
    ∃ e, engine.step file init s token later = .error e ∧ Fails engine file s token e := by
  obtain ⟨taken, position, buffer, blocks⟩ := s
  cases taken with
  | succ taken => exact .inl ⟨_, step_skip _ engine, .skip⟩
  | zero =>
    cases token with
    | text line content =>
      cases h : engine.text buffer content with
      | ok b =>
        refine .inl ⟨_, ?_, .text h⟩
        simp only [Engine.step, Template.step, ofExcept_eq, h]
        rfl
      | error e =>
        refine .inr ⟨_, ?_, .text h⟩
        simp only [Engine.step, Template.step, ofExcept_eq, h]
        rfl
    | tag tag =>
      by_cases hr : tag.Unreserved
      case neg => exact .inr ⟨_, step_reserved hr, .reserved hr⟩
      cases hk : tag.kind with
      | plain =>
        rw [step_plain hk hr]
        cases hp : parseCode file tag.code tag.line with
        | error e => exact .inr ⟨e, rfl, .plainCode hk hp⟩
        | ok tree =>
          cases ha : engine.add file tag buffer tree with
          | error e => exact .inr ⟨e, by rw [ok_bind, ha]; rfl, .plainTree hk hp ha⟩
          | ok b => exact .inl ⟨_, by rw [ok_bind, ha]; rfl, .plain hk hr hp ha⟩
      | opening => exact .inl ⟨_, step_opening hk hr, .opening hk hr rfl⟩
      | middle =>
        cases hm : tag.marker.isEmpty with
        | false => exact .inr ⟨_, step_markedMiddle hk hr hm, .markedMiddle hk (by simp [hm])⟩
        | true =>
          cases blocks with
          | nil => exact .inr ⟨_, step_middle_outside hk hr hm, .middleOutside hk hm⟩
          | cons block blocks => exact .inl ⟨_, step_middle hk hr hm, .middle hk hr hm⟩
      | closing =>
        cases blocks with
        | nil => exact .inr ⟨_, step_closing_outside hk hr, .closingOutside hk⟩
        | cons block blocks =>
          cases hm : tag.marker.isEmpty with
          | false =>
            exact .inr ⟨_, step_markedClosing hk hr hm, .markedClosing hk (by simp [hm])⟩
          | true =>
            rw [step_closing hk hr hm]
            generalize hc : block.extend buffer tag = closed
            cases hp : parseCode file closed.source closed.opening.line with
            | error e => exact .inr ⟨e, by simp only [hp, error_bind], .blockCode hk hm hc hp⟩
            | ok tree =>
              simp only [hp, ok_bind]
              cases hs : substitute closed.sections tree with
              | error e => exact .inr ⟨e, rfl, .noSection hk hr hm hc hp hs⟩
              | ok tree' =>
                rw [ok_bind]
                cases ha : engine.add file closed.opening closed.outer tree' with
                | error e => exact .inr ⟨e, rfl, .blockTree hk hm hc hp hs ha⟩
                | ok b => exact .inl ⟨_, rfl, .closing hk hr hm hc hp hs ha⟩

theorem Steps.of_ok (h : engine.step file init s token later = .ok s') :
    Steps engine file init s token later s' := by
  obtain ⟨_, h', hs⟩ | ⟨_, h', _⟩ :=
    step_cases engine file init s token later
  · rw [h, Except.ok.injEq] at h'
    exact h' ▸ hs
  · rw [h] at h'
    cases h'

theorem Fails.of_error {e : Fault} (h : engine.step file init s token later = .error e) :
    Fails engine file s token e := by
  obtain ⟨_, h', _⟩ | ⟨_, h', hf⟩ :=
    step_cases engine file init s token later
  · rw [h] at h'
    cases h'
  · rw [h, Except.error.injEq] at h'
    exact h' ▸ hf

theorem Fails.taken {e : Fault} (h : Fails engine file s token e) : s.taken = 0 := by
  cases h <;> rfl

theorem generate_cons : engine.generate file init s (token :: later) =
    engine.step file init s token later >>= fun s => engine.generate file init s later := rfl

theorem run_cons : engine.run file init s (token :: now) later =
    engine.step file init s token (now ++ later) >>= fun s =>
      engine.run file init s now later := rfl

theorem generate_append : engine.generate file init s (now ++ later) =
    engine.run file init s now later >>= fun s => engine.generate file init s later := by
  induction now generalizing s with
  | nil => rfl
  | cons token now ih =>
    rw [List.cons_append, generate_cons, run_cons]
    cases engine.step file init s token (now ++ later) with
    | error e => rfl
    | ok s' => exact ih

theorem run_append : engine.run file init s (now ++ more) later =
    engine.run file init s now (more ++ later) >>= fun s => engine.run file init s more later := by
  induction now generalizing s with
  | nil => rfl
  | cons token now ih =>
    rw [List.cons_append, run_cons, run_cons, List.append_assoc]
    cases engine.step file init s token (now ++ (more ++ later)) with
    | error e => rfl
    | ok s' => exact ih

theorem generate_eq_run : engine.generate file init s now =
    engine.run file init s now [] >>= engine.finish file := by
  have h : engine.generate file init s (now ++ []) =
    engine.run file init s now [] >>= engine.finish file := generate_append
  rwa [List.append_nil] at h

theorem run_eq_error {e : Fault} (h : engine.run file init s now later = .error e) :
    ∃ before token more s', now = before ++ token :: more ∧
      engine.run file init s before (token :: more ++ later) = .ok s' ∧
      Fails engine file s' token e := by
  induction now generalizing s with
  | nil => cases h
  | cons token now ih =>
    rw [run_cons, bind_eq_error] at h
    rcases h with h | ⟨s₁, hs, h⟩
    · exact ⟨[], token, now, s, rfl, rfl, .of_error h⟩
    · obtain ⟨before, t, more, s', rfl, hr, hf⟩ := ih h
      refine ⟨token :: before, t, more, s', rfl, ?_, hf⟩
      rw [List.append_assoc] at hs
      rw [run_cons, hs, ok_bind, hr]

theorem generate_eq_error {e : Fault} (h : engine.generate file init s now = .error e) :
    (∃ s', engine.run file init s now [] = .ok s' ∧ engine.finish file s' = .error e) ∨
    ∃ before token later s', now = before ++ token :: later ∧
      engine.run file init s before (token :: later) = .ok s' ∧ Fails engine file s' token e := by
  rw [generate_eq_run, bind_eq_error] at h
  obtain h | ⟨s', hr, hf⟩ := h
  · obtain ⟨before, token, later, s', rfl, hr, hf⟩ := run_eq_error h
    rw [List.append_nil] at hr
    exact .inr ⟨before, token, later, s', rfl, hr, hf⟩
  · exact .inl ⟨s', hr, hf⟩

theorem compileTokens_eq_ok {options : Options} {tokens : List Token} {artifact : Tree} :
    compileTokens engine options tokens = .ok artifact ↔
      ∃ position, engine.generate options.file (engine.init options)
        { buffer := engine.init options } tokens = .ok (artifact, position) := by
  change (engine.generate options.file _ _ tokens >>= fun result => pure result.1) = _ ↔ _
  simp only [bind_eq_ok, pure_eq_ok, Prod.exists, Except.ok.injEq]
  grind

theorem compile_eq {options : Options} {source : String} {tokens : List Token}
    (h : tokenize source options.line options.trim = .ok tokens) :
    compile engine options source = compileTokens engine options tokens := by
  unfold compile compileWith
  rw [h]
  rfl

theorem compile_eq_error {options : Options} {source : String} {e : ScanFault}
    (h : tokenize source options.line options.trim = .error e) :
    compile engine options source = .error (fault options.file e.line e.cause) := by
  unfold compile compileWith
  rw [h]
  rfl

theorem run_induction {P : State → List Token → Prop}
    (keeps : ∀ {s s' token later}, P s (token :: later) → Steps engine file init s token later s' →
      P s' later)
    (h : P s (now ++ later)) (hr : engine.run file init s now later = .ok s') : P s' later := by
  induction now generalizing s with
  | nil => cases hr; exact h
  | cons token now ih =>
    rw [run_cons, bind_eq_ok] at hr
    obtain ⟨s₁, hs, hr⟩ := hr
    exact ih (keeps h (.of_ok hs)) hr

end EmbeddedTemplate.Template
