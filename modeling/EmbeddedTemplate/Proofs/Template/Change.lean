import EmbeddedTemplate.Proofs.Template.Run

/-!
Two runs of the compiler, of which the second gets the tokens of the first with their lines and
texts changed. If what the engines make of changed things is what they make of them, changed, then
so is the result of the second run.
-/

namespace EmbeddedTemplate.Template

def Engine.ofTag [CharacterNames] (engine : Engine) (file : String) (tag : Tag) (buffer : Tree) :
    Except Fault Tree := do
  let tree ← parseCode file tag.code tag.line
  engine.add file tag buffer tree

def Engine.ofBlock [CharacterNames] (engine : Engine) (file : String) (closed : OpenBlock) :
    Except Fault Tree := do
  let tree ← parseCode file closed.source closed.opening.line
  let tree ← substitute closed.sections tree
  engine.add file closed.opening closed.outer tree

section

variable [CharacterNames] {engine : Engine} {file : String} {init buffer : Tree}
variable {position : Nat} {tag : Tag}
variable {block : OpenBlock} {blocks : List OpenBlock} {later : List Token}

theorem step_ofTag (hk : tag.kind = .plain) (hr : tag.Unreserved) :
    engine.step file init ⟨0, position, buffer, blocks⟩ (.tag tag) later =
      (engine.ofTag file tag buffer).map fun buffer => ⟨0, position + 1, buffer, blocks⟩ := by
  rw [step_plain hk hr, Engine.ofTag]
  cases parseCode file tag.code tag.line with
  | error e => rfl
  | ok tree => rfl

theorem step_ofBlock (hk : tag.kind = .closing) (hr : tag.Unreserved) (hm : tag.marker.isEmpty) :
    engine.step file init ⟨0, position, buffer, block :: blocks⟩ (.tag tag) later =
      (engine.ofBlock file (block.extend buffer tag)).map
        fun buffer => ⟨0, position + 1, buffer, blocks⟩ := by
  rw [step_closing hk hr hm, Engine.ofBlock]
  generalize block.extend buffer tag = closed
  dsimp only
  cases parseCode file closed.source closed.opening.line with
  | error e => rfl
  | ok tree =>
    cases h : substitute closed.sections tree with
    | error e => simp only [ok_bind, h, error_bind, Except.map]
    | ok tree' => simp only [ok_bind, h]; rfl

end

def IsGap (s : String) : Prop := s.toList.all Text.isGap

instance (s : String) : Decidable (IsGap s) := inferInstanceAs (Decidable (_ = true))

/-- New texts for old ones: blank texts stay as they are, and no other text becomes blank. -/
structure KeepsGaps (r : String → String) : Prop where
  gap : ∀ s, IsGap s → r s = s
  text : ∀ s, ¬ IsGap s → ¬ IsGap (r s)

theorem keepsGaps_id : KeepsGaps id where
  gap _ _ := rfl
  text _ h := h

theorem KeepsGaps.isGap_iff {r : String → String} (h : KeepsGaps r) {s : String} :
    IsGap (r s) ↔ IsGap s := by
  by_cases hs : IsGap s
  · rw [h.gap s hs]
  · exact iff_of_false (h.text s hs) hs

structure Change where
  text : String → String := id
  line : Int → Int := id
  tree : Tree → Tree := id
  fault : Fault → Fault := id

namespace Change

variable (c : Change) {α β γ δ : Type}

def tag (t : Tag) : Tag := { t with line := c.line t.line }

def token : Token → Token
  | .text line content => .text (c.line line) (c.text content)
  | .tag t => .tag (c.tag t)

def block (b : OpenBlock) : OpenBlock where
  opening := c.tag b.opening
  outer := c.tree b.outer
  source := b.source
  line := c.line b.line
  sections := b.sections.map c.tree

def state (s : State) : State :=
  { s with buffer := c.tree s.buffer, blocks := s.blocks.map c.block }

def lookahead (ahead : Lookahead) : Lookahead := { ahead with line := c.line ahead.line }

def outcome (f : α → β) : Except Fault α → Except Fault β := mapBoth c.fault f

variable {c} {f : α → β} {g : γ → δ} {x : Except Fault α}

@[simp] theorem outcome_ok (a : α) : c.outcome f (.ok a) = .ok (f a) := rfl

@[simp] theorem outcome_error (e : Fault) : c.outcome f (.error e) = .error (c.fault e) := rfl

theorem outcome_eq_map (h : c.fault = id) : c.outcome f x = x.map f := by
  cases x with
  | error e => rw [outcome_error, h]; rfl
  | ok a => rfl

theorem outcome_bind {next : α → Except Fault γ} {next' : β → Except Fault δ}
    (h : ∀ a, next' (f a) = c.outcome g (next a)) :
    c.outcome f x >>= next' = c.outcome g (x >>= next) := mapBoth_bind h

theorem outcome_map (k : α → γ) {k' : β → δ} (h : ∀ a, k' (f a) = g (k a)) :
    (c.outcome f x).map k' = c.outcome g (x.map k) := by
  cases x with
  | error e => rfl
  | ok a => exact congrArg Except.ok (h a)

/-- The engines, the parser and the compiler's own faults follow the change. -/
structure Carries [CharacterNames] (c : Change) (file : String) (first second : Engine) : Prop where
  texts : KeepsGaps c.text
  distance : ∀ m n, c.line m - c.line n = m - n
  fault : ∀ line cause,
    c.fault (Template.fault file line cause) = Template.fault file (c.line line) cause
  text : ∀ buffer content,
    second.text (c.tree buffer) (c.text content) = c.outcome c.tree (first.text buffer content)
  tag : ∀ tag buffer,
    second.ofTag file (c.tag tag) (c.tree buffer) = c.outcome c.tree (first.ofTag file tag buffer)
  block : ∀ closed,
    second.ofBlock file (c.block closed) = c.outcome c.tree (first.ofBlock file closed)

namespace Carries

variable [CharacterNames] {first second : Engine} {file : String} {init buffer : Tree}
variable {s : State} {b : OpenBlock}
variable {t : Tag} {token : Token} {tokens later : List Token}

theorem extend (h : c.Carries file first second) :
    (c.block b).extend (c.tree buffer) (c.tag t) = c.block (b.extend buffer t) := by
  simp [OpenBlock.extend, Change.block, Change.tag, h.distance]

theorem lookAhead (h : c.Carries file first second) (source : String) (line : Int) :
    lookAhead source (c.line line) (later.map c.token) =
      c.lookahead (Template.lookAhead source line later) := by
  match later with
  | [] | [.text ..] | .text .. :: .text .. :: _ => rfl
  | .tag t :: _ =>
    simp only [List.map_cons, Change.token, Template.lookAhead]
    change (if t.continues then _ else _) = _
    split <;> rfl
  | .text _ blank :: .tag t :: _ =>
    have hb : (c.text blank).toList.all Text.isGap = blank.toList.all Text.isGap :=
      Bool.eq_iff_iff.2 h.texts.isGap_iff
    simp only [List.map_cons, Change.token, Template.lookAhead, hb]
    change (if (t.continues && _) then _ else _) = _
    split
    · next hg =>
      rw [h.texts.gap blank (Bool.and_eq_true_iff.1 hg).2]
      rfl
    · rfl

theorem step (h : c.Carries file first second) :
    second.step file (c.tree init) (c.state s) (c.token token) (later.map c.token) =
      c.outcome c.state (first.step file init s token later) := by
  obtain ⟨taken, position, buffer, blocks⟩ := s
  cases taken with
  | succ taken => rfl
  | zero =>
    cases token with
    | text line content =>
      simp only [Engine.step, Template.step, ofExcept_eq, Change.state, Change.token]
      rw [h.text]
      cases first.text buffer content <;> rfl
    | tag tag =>
      rw [Change.token, Change.state]
      -- What tells the branches of a step apart is left alone by the change.
      by_cases hr : tag.Unreserved
      case neg =>
        have hr' : ¬ (c.tag tag).Unreserved := hr
        rw [step_reserved hr, step_reserved hr', outcome_error, h.fault]
        rfl
      have hr' : (c.tag tag).Unreserved := hr
      cases hk : tag.kind with
      | plain =>
        have hk' : (c.tag tag).kind = .plain := hk
        rw [step_ofTag hk hr, step_ofTag hk' hr', h.tag]
        exact outcome_map _ fun _ => rfl
      | opening =>
        have hk' : (c.tag tag).kind = .opening := hk
        have hl : Template.lookAhead (c.tag tag).code (c.tag tag).line (later.map c.token) = _ :=
          h.lookAhead tag.code tag.line
        rw [step_opening hk hr, step_opening hk' hr', hl]
        rfl
      | middle =>
        have hk' : (c.tag tag).kind = .middle := hk
        cases hm : tag.marker.isEmpty with
        | false =>
          have hm' : (c.tag tag).marker.isEmpty = false := hm
          rw [step_markedMiddle hk hr hm, step_markedMiddle hk' hr' hm', outcome_error, h.fault]
          rfl
        | true =>
          have hm' : (c.tag tag).marker.isEmpty := hm
          cases blocks with
          | nil =>
            rw [step_middle_outside hk hr hm, List.map_nil, step_middle_outside hk' hr' hm',
              outcome_error, h.fault]
            rfl
          | cons block blocks =>
            rw [step_middle hk hr hm, List.map_cons, step_middle hk' hr' hm', h.extend]
            rfl
      | closing =>
        have hk' : (c.tag tag).kind = .closing := hk
        cases blocks with
        | nil =>
          rw [step_closing_outside hk hr, List.map_nil, step_closing_outside hk' hr',
            outcome_error, h.fault]
          rfl
        | cons block blocks =>
          cases hm : tag.marker.isEmpty with
          | false =>
            have hm' : (c.tag tag).marker.isEmpty = false := hm
            rw [step_markedClosing hk hr hm, List.map_cons, step_markedClosing hk' hr' hm',
              outcome_error, h.fault]
            rfl
          | true =>
            have hm' : (c.tag tag).marker.isEmpty := hm
            rw [step_ofBlock hk hr hm, List.map_cons, step_ofBlock hk' hr' hm', h.extend, h.block]
            exact outcome_map _ fun _ => rfl

theorem run (h : c.Carries file first second) (s : State) (now later : List Token) :
    second.run file (c.tree init) (c.state s) (now.map c.token) (later.map c.token) =
      c.outcome c.state (first.run file init s now later) := by
  induction now generalizing s with
  | nil => rfl
  | cons token now ih =>
    rw [List.map_cons, run_cons, run_cons, ← List.map_append, h.step]
    exact outcome_bind ih

theorem finish (h : c.Carries file first second)
    (hb : second.body (c.tree s.buffer) = c.outcome c.tree (first.body s.buffer)) :
    second.finish file (c.state s) =
      c.outcome (fun r => (c.tree r.1, r.2)) (first.finish file s) := by
  obtain ⟨taken, position, buffer, blocks⟩ := s
  cases blocks with
  | nil =>
    simp only [Engine.finish, Template.finish, Change.state, ofExcept_eq, List.map_nil, hb]
    cases first.body buffer <;> rfl
  | cons block blocks => exact congrArg Except.error (h.fault block.line .unclosedBlock).symm

theorem generate (h : c.Carries file first second) (init : Tree) (s : State) (tokens : List Token)
    (hb : ∀ s', first.run file init s tokens [] = .ok s' →
      second.body (c.tree s'.buffer) = c.outcome c.tree (first.body s'.buffer)) :
    second.generate file (c.tree init) (c.state s) (tokens.map c.token) =
      c.outcome (fun r => (c.tree r.1, r.2)) (first.generate file init s tokens) := by
  have hr : second.run file (c.tree init) (c.state s) (tokens.map c.token) [] =
      c.outcome c.state (first.run file init s tokens []) := h.run s tokens []
  rw [generate_eq_run, generate_eq_run, hr]
  cases hs : first.run file init s tokens [] with
  | error e => rfl
  | ok s' => exact h.finish (hb s' hs)

theorem compileTokens {options options' : Options} (h : c.Carries options.file first second)
    (hf : options'.file = options.file) (hi : second.init options' = c.tree (first.init options))
    (hb : ∀ buffer, second.body (c.tree buffer) = c.outcome c.tree (first.body buffer))
    (tokens : List Token) : compileTokens second options' (tokens.map c.token) =
      c.outcome c.tree (Template.compileTokens first options tokens) := by
  have hg := h.generate (first.init options) { buffer := first.init options } tokens
    fun s' _ => hb s'.buffer
  change (second.generate options'.file (second.init options') _ _ >>= fun r => pure r.1) =
    c.outcome c.tree (first.generate options.file _ _ tokens >>= fun r => pure r.1)
  rw [hf, hi]
  exact (congrArg (· >>= _) hg).trans (outcome_bind fun _ => rfl)

end Carries

section

variable [CharacterNames] {first second : Engine} {file : String}
variable (hp : ∀ code line,
  parseCode file code (c.line line) = c.outcome c.tree (parseCode file code line))
variable (ha : ∀ tag buffer tree, second.add file (c.tag tag) (c.tree buffer) (c.tree tree) =
  c.outcome c.tree (first.add file tag buffer tree))

include hp ha

theorem ofTag_of_parts (tag : Tag) (buffer : Tree) :
    second.ofTag file (c.tag tag) (c.tree buffer) =
      c.outcome c.tree (first.ofTag file tag buffer) := by
  change parseCode file tag.code (c.line tag.line) >>= _ = _
  rw [hp]
  exact outcome_bind fun tree => ha tag buffer tree

theorem ofBlock_of_parts (hs : ∀ sections tree, substitute (sections.map c.tree) (c.tree tree) =
      c.outcome c.tree (substitute sections tree)) (closed : OpenBlock) :
    second.ofBlock file (c.block closed) = c.outcome c.tree (first.ofBlock file closed) := by
  change parseCode file closed.source (c.line closed.opening.line) >>= _ = _
  rw [hp]
  refine outcome_bind fun tree => ?_
  change substitute (closed.sections.map c.tree) (c.tree tree) >>= _ = _
  rw [hs]
  exact outcome_bind fun tree => ha closed.opening closed.outer tree

end

end Change

end EmbeddedTemplate.Template
