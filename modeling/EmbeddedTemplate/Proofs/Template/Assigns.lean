import EmbeddedTemplate.Proofs.Template.Engines

namespace EmbeddedTemplate.Template.Engine

open EmbeddedTemplate.Tree

variable {t u target target' : Tree} {note : Annotation} {args args' : List Tree} {name : String}

def assign? : Tree → Option (String × Annotation)
  | .call (.str op) note [.ref (.str name) _] => if op = "@" then some (name, note) else none
  | _ => none

theorem rewriteAssign_eq (t : Tree) :
    rewriteAssign t = ((assign? t).map fun a => fetchAssign a.1 a.2).getD t := by
  unfold rewriteAssign
  split
  · next op note name inner => by_cases h : op = "@" <;> simp [assign?, h]
  · next hne =>
    rw [assign?]
    · rfl
    · exact hne

theorem expandAssigns_call : expandAssigns (.call target note args) =
    ((assign? (.call target note args)).map fun a => fetchAssign a.1 a.2).getD
      (.call (expandAssigns target) note (expandAllAssigns args)) := by
  unfold assign?
  split
  · next heq =>
    cases heq
    simp only [expandAssigns]
    split <;> rfl
  · next hne =>
    rw [expandAssigns]
    · rfl
    · intro op name inner hop hargs
      exact hne op note name inner (by rw [hop, hargs])

theorem expandAssigns_fetchAssign (name : String) (note : Annotation) :
    expandAssigns (fetchAssign name note) = fetchAssign name note := rfl

theorem expandAssigns_call_two (t u : Tree) (ts : List Tree) :
    expandAssigns (.call target note (t :: u :: ts)) =
      .call (expandAssigns target) note (expandAllAssigns (t :: u :: ts)) := by
  have : assign? (.call target note (t :: u :: ts)) = none := by
    unfold assign?
    split
    · next heq => cases heq
    · rfl
  rw [expandAssigns_call, this]
  rfl

theorem expandAssigns_concatenation (left right : Tree) :
    expandAssigns (concatenation left right) =
      concatenation (expandAssigns left) (expandAssigns right) :=
  expandAssigns_call_two left right []

theorem expandAssigns_evaluation (buffer t : Tree) :
    expandAssigns (evaluation buffer t) =
      evaluation (expandAssigns buffer) (expandAssigns t) := by
  rw [evaluation, named, expandAssigns_call_two]
  simp only [expandAllAssigns, named, expandAssigns_call_two]
  rfl

theorem expandAssigns_textOf (t : Tree) :
    expandAssigns (textOf t) = textOf (expandAssigns t) := by
  rw [textOf, remote, expandAssigns_call]
  rfl

theorem expandAssigns_eq_str (h : expandAssigns t = .str name) : t = .str name := by
  rw [← expandAssigns_of_isLiteral (t := t) (by rw [h]; rfl), h]

theorem expandAssigns_eq_ref (h : expandAssigns t = .ref (.str name) note) :
    t = .ref (.str name) note := by
  cases t with
  | ref target note' =>
    rw [expandAssigns] at h
    obtain ⟨ht, rfl⟩ := Tree.ref.inj h
    rw [expandAssigns_eq_str ht]
  | call target note' args =>
    rw [expandAssigns_call] at h
    cases ha : assign? (.call target note' args) <;> rw [ha] at h <;> cases h
  | _ => cases h

/-- Expanding the parts of a call makes it no form and hides none. -/
theorem assign?_expandAssigns :
    assign? (.call (expandAssigns target) note (expandAllAssigns args)) =
      assign? (.call target note args) := by
  conv => rhs; unfold assign?
  split
  · next heq =>
    cases heq
    rfl
  · next hne =>
    unfold assign?
    split
    · next op note' name inner heq =>
      obtain ⟨ht, rfl, ha⟩ := Tree.call.inj heq
      rw [expandAllAssigns_eq_map] at ha
      obtain ⟨t, rfl, hu⟩ := List.map_eq_singleton_iff.1 ha
      exact absurd (by rw [expandAssigns_eq_str ht, expandAssigns_eq_ref hu])
        (hne op note name inner)
    · rfl

theorem expandAssigns_call_congr (ht : expandAssigns target = expandAssigns target')
    (ha : expandAllAssigns args = expandAllAssigns args') :
    expandAssigns (.call target note args) = expandAssigns (.call target' note args') := by
  rw [expandAssigns_call, expandAssigns_call, ← assign?_expandAssigns, ht, ha,
    assign?_expandAssigns]

mutual

theorem expandAssigns_expandAssigns (t : Tree) :
    expandAssigns (expandAssigns t) = expandAssigns t := by
  cases t with
  | call target note args =>
    rw [expandAssigns_call]
    cases ha : assign? (.call target note args) with
    | some a => exact expandAssigns_fetchAssign a.1 a.2
    | none =>
      simp only [Option.map_none, Option.getD_none]
      rw [expandAssigns_call, assign?_expandAssigns, ha, expandAssigns_expandAssigns target,
        expandAllAssigns_expandAllAssigns args]
      rfl
  | ref target note => simp only [expandAssigns, expandAssigns_expandAssigns target]
  | pair left right =>
    simp only [expandAssigns, expandAssigns_expandAssigns left, expandAssigns_expandAssigns right]
  | list items => simp only [expandAssigns, expandAllAssigns_expandAllAssigns items]
  | _ => rfl

theorem expandAllAssigns_expandAllAssigns (ts : List Tree) :
    expandAllAssigns (expandAllAssigns ts) = expandAllAssigns ts := by
  cases ts with
  | nil => rfl
  | cons t ts =>
    simp only [expandAllAssigns, expandAssigns_expandAssigns t,
      expandAllAssigns_expandAllAssigns ts]

end

@[simp] theorem line?_expandAssigns (t : Tree) : (expandAssigns t).line? = t.line? := by
  cases t with
  | call target note args =>
    rw [expandAssigns_call]
    cases ha : assign? (.call target note args) with
    | none => rfl
    | some a =>
      unfold assign? at ha
      split at ha
      · next heq =>
        cases heq
        split at ha <;> cases ha
        rfl
      · cases ha
  | _ => rfl

theorem assign?_eq_some {a : String × Annotation} (h : assign? t = some a) :
    ∃ inner, t = .call (.str "@") a.2 [.ref (.str a.1) inner] := by
  unfold assign? at h
  split at h
  · next op note name inner =>
    split at h
    · next hop =>
      cases h
      exact ⟨inner, by rw [hop]⟩
    · cases h
  · cases h

theorem prewalk_fetchAssign (depth : Nat) (name : String) (note : Annotation) :
    prewalk rewriteAssign (depth + 4) (fetchAssign name note) = some (fetchAssign name note) := rfl

/-- A walk from the top that may go one deeper than the tree expands its forms. -/
theorem prewalk_rewriteAssign (t : Tree) {depth : Nat} (h : t.depth < depth) :
    prewalk rewriteAssign depth t = some (expandAssigns t) := by
  have hall (args : List Tree) (d : Nat)
      (ih : ∀ t : Tree, t.depth < d → prewalk rewriteAssign d t = some (expandAssigns t))
      (ha : depths args < d) :
      args.mapM (prewalk rewriteAssign d) = some (expandAllAssigns args) := by
    induction args with
    | nil => rfl
    | cons t ts iht =>
      rw [depths] at ha
      rw [List.mapM_cons, ih t (by omega), iht (by omega)]
      rfl
  have htarget (target : Tree) (d : Nat) (next : Tree → Option Tree)
      (ih : ∀ t : Tree, t.depth < d → prewalk rewriteAssign d t = some (expandAssigns t))
      (ht : target.depth < d) :
      (if target.isName then pure target >>= next else prewalk rewriteAssign d target >>= next) =
        next (expandAssigns target) := by
    cases target <;> first | rfl | exact congrArg (· >>= next) (ih _ ht)
  induction depth generalizing t with
  | zero => omega
  | succ d ih =>
    cases ha : assign? t with
    -- The walk goes on into the look-up, which is one deeper than the form.
    | some a =>
      obtain ⟨inner, rfl⟩ := assign?_eq_some ha
      obtain ⟨d, rfl⟩ : ∃ d', d = d' + 3 := ⟨d - 3, by simp [Tree.depth, depths] at h; omega⟩
      rw [expandAssigns_call, ha]
      exact prewalk_fetchAssign d a.1 a.2
    | none =>
      rw [prewalk, rewriteAssign_eq, ha]
      cases t with
      | call target note args =>
        rw [Tree.depth] at h
        simp only [Option.map_none, Option.getD_none]
        rw [htarget target d _ ih (by omega), hall args d ih (by omega), expandAssigns_call, ha]
        rfl
      | ref target note =>
        rw [Tree.depth] at h
        simp only [Option.map_none, Option.getD_none]
        rw [htarget target d _ ih (by omega), expandAssigns]
        rfl
      | pair left right =>
        rw [Tree.depth] at h
        simp only [Option.map_none, Option.getD_none]
        rw [ih left (by omega), ih right (by omega), expandAssigns]
        rfl
      | list items =>
        rw [Tree.depth] at h
        simp only [Option.map_none, Option.getD_none]
        rw [hall items d ih (by omega), expandAssigns]
        rfl
      | _ => rfl

end EmbeddedTemplate.Template.Engine
