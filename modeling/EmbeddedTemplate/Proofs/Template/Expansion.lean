import EmbeddedTemplate.Proofs.Template.Assigns
import Mathlib.Data.List.Forall2

namespace EmbeddedTemplate

namespace Tree

mutual

def nodes : Tree → List Tree
  | .call target note args => .call target note args :: (target.nodes ++ nodesAll args)
  | .ref target note => .ref target note :: target.nodes
  | .pair left right => .pair left right :: (left.nodes ++ right.nodes)
  | .list items => .list items :: nodesAll items
  | leaf => [leaf]

def nodesAll : List Tree → List Tree
  | [] => []
  | t :: ts => t.nodes ++ nodesAll ts

end

/-- The trees are the same but for places where what stands there is related. -/
inductive Replaced (R : Tree → Tree → Prop) : Tree → Tree → Prop
  | here {t u} : R t u → Replaced R t u
  | same {t} : Replaced R t t
  | call {target target' note args args'} : Replaced R target target' →
      List.Forall₂ (Replaced R) args args' →
      Replaced R (.call target note args) (.call target' note args')
  | ref {target target' note} : Replaced R target target' →
      Replaced R (.ref target note) (.ref target' note)
  | pair {left left' right right'} : Replaced R left left' → Replaced R right right' →
      Replaced R (.pair left right) (.pair left' right')
  | list {items items'} : List.Forall₂ (Replaced R) items items' →
      Replaced R (.list items) (.list items')

end Tree

namespace Template.Engine

open EmbeddedTemplate.Tree

variable {t target : Tree} {note : Annotation} {args : List Tree} {name : String}

def isAssign (t : Tree) : Bool := (assign? t).isSome

def method? : Tree → Option String
  | .call (.str ".") _ [_, .atom name] => some name
  | _ => none

def isLookup : Tree → Bool
  | .call target _ _ => method? target = some "fetch_assign!"
  | _ => false

theorem method?_eq_some : method? t = some name ↔
    ∃ note owner, t = .call (.str ".") note [owner, .atom name] := by
  refine ⟨fun h => ?_, ?_⟩
  · unfold method? at h
    split at h
    · next note owner _ =>
      cases h
      exact ⟨note, owner, rfl⟩
    · cases h
  · rintro ⟨note, owner, rfl⟩
    rfl

/-- A look-up is a call of a point and no point itself, so the expansion makes no new points. -/
theorem method?_expandAssigns (t : Tree) : method? (expandAssigns t) = method? t := by
  ext name
  simp only [method?_eq_some]
  refine ⟨?_, ?_⟩
  · rintro ⟨note, owner, h⟩
    cases t with
    | call target note' args =>
      rw [expandAssigns_call] at h
      cases ha : assign? (.call target note' args) with
      | some a =>
        rw [ha] at h
        cases h
      | none =>
        rw [ha] at h
        obtain ⟨ht, rfl, hargs⟩ := Tree.call.inj h
        rw [expandAllAssigns_eq_map, List.map_eq_cons_iff] at hargs
        obtain ⟨owner', rest, rfl, -, hrest⟩ := hargs
        obtain ⟨method, rfl, hmethod⟩ := List.map_eq_singleton_iff.1 hrest
        have hatom := expandAssigns_of_isLiteral (t := method) (by rw [hmethod]; rfl)
        exact ⟨note', owner', by rw [expandAssigns_eq_str ht, ← hatom, hmethod]⟩
    | _ => cases h
  · rintro ⟨note, owner, rfl⟩
    exact ⟨note, expandAssigns owner, expandAssigns_call_two owner _ []⟩

mutual

theorem assign?_nodes_expand (t : Tree) : ∀ u ∈ (expandAssigns t).nodes, assign? u = none := by
  cases t with
  | call target note args =>
    rw [expandAssigns_call]
    cases ha : assign? (.call target note args) with
    | some a => simp [fetchAssign, remote, named, moduleName, var, nodes, nodesAll, assign?]
    | none =>
      simp only [Option.map_none, Option.getD_none, nodes, List.forall_mem_cons,
        List.forall_mem_append]
      exact ⟨assign?_expandAssigns.trans ha, assign?_nodes_expand target,
        assign?_nodesAll_expand args⟩
  | ref target note =>
    exact List.forall_mem_cons.2 ⟨rfl, assign?_nodes_expand target⟩
  | pair left right =>
    exact List.forall_mem_cons.2 ⟨rfl, List.forall_mem_append.2
      ⟨assign?_nodes_expand left, assign?_nodes_expand right⟩⟩
  | list items => exact List.forall_mem_cons.2 ⟨rfl, assign?_nodesAll_expand items⟩
  | _ => exact List.forall_mem_singleton.2 rfl

theorem assign?_nodesAll_expand (ts : List Tree) :
    ∀ u ∈ nodesAll (expandAllAssigns ts), assign? u = none := by
  cases ts with
  | nil => exact nofun
  | cons t ts =>
    exact List.forall_mem_append.2 ⟨assign?_nodes_expand t, assign?_nodesAll_expand ts⟩

end

mutual

theorem countP_isLookup_expandAssigns (t : Tree) : (expandAssigns t).nodes.countP isLookup =
    t.nodes.countP isLookup + t.nodes.countP isAssign := by
  cases t with
  | call target note args =>
    rw [expandAssigns_call]
    cases ha : assign? (.call target note args) with
    | some a =>
      -- nothing in a form is a form or a look-up, so the form itself is all that counts
      obtain ⟨inner, h⟩ := assign?_eq_some ha
      rw [h]
      rfl
    | none =>
      have hassign : isAssign (.call target note args) = false := by rw [isAssign, ha]; rfl
      have hlookup : isLookup (.call (expandAssigns target) note (expandAllAssigns args)) =
          isLookup (.call target note args) := by
        simp only [isLookup, method?_expandAssigns]
      simp only [Option.map_none, Option.getD_none, nodes, List.countP_cons, List.countP_append,
        hassign, hlookup, countP_isLookup_expandAssigns target,
        countP_isLookup_expandAllAssigns args, Bool.false_eq_true, if_false]
      omega
  | ref target note =>
    have := countP_isLookup_expandAssigns target
    simpa [expandAssigns, nodes, isLookup, isAssign, assign?] using this
  | pair left right =>
    simp only [expandAssigns, nodes, List.countP_cons, List.countP_append, isLookup, isAssign,
      assign?, Option.isSome_none, Bool.false_eq_true, if_false,
      countP_isLookup_expandAssigns left, countP_isLookup_expandAssigns right]
    omega
  | list items =>
    have := countP_isLookup_expandAllAssigns items
    simpa [expandAssigns, nodes, isLookup, isAssign, assign?] using this
  | _ => rfl

theorem countP_isLookup_expandAllAssigns (ts : List Tree) :
    (nodesAll (expandAllAssigns ts)).countP isLookup =
      (nodesAll ts).countP isLookup + (nodesAll ts).countP isAssign := by
  cases ts with
  | nil => rfl
  | cons t ts =>
    simp only [expandAllAssigns, nodesAll, List.countP_append, countP_isLookup_expandAssigns t,
      countP_isLookup_expandAllAssigns ts]
    omega

end

def Expands (form lookup : Tree) : Prop :=
  ∃ a, assign? form = some a ∧ lookup = fetchAssign a.1 a.2

mutual

theorem replaced_expandAssigns (t : Tree) : Replaced Expands t (expandAssigns t) := by
  cases t with
  | call target note args =>
    rw [expandAssigns_call]
    cases ha : assign? (.call target note args) with
    | some a => exact .here ⟨a, ha, rfl⟩
    | none => exact .call (replaced_expandAssigns target) (replaced_expandAllAssigns args)
  | ref target note => exact .ref (replaced_expandAssigns target)
  | pair left right => exact .pair (replaced_expandAssigns left) (replaced_expandAssigns right)
  | list items => exact .list (replaced_expandAllAssigns items)
  | _ => exact .same

theorem replaced_expandAllAssigns (ts : List Tree) :
    List.Forall₂ (Replaced Expands) ts (expandAllAssigns ts) := by
  cases ts with
  | nil => exact .nil
  | cons t ts => exact .cons (replaced_expandAssigns t) (replaced_expandAllAssigns ts)

end

/--
The walk that replaces the forms `@name` ends on every tree, at most one level deeper than the tree
although it goes on into the look-ups. No form is left, so that a second walk changes nothing; there
are as many look-ups more as there were forms; and the tree is the same in all other places, notes
included.
-/
theorem prewalk_expands (t : Tree) : ∃ u,
    (∀ depth, t.depth < depth → t.prewalk rewriteAssign depth = some u) ∧
      (∀ v ∈ u.nodes, assign? v = none) ∧
      (∀ depth, u.depth < depth → u.prewalk rewriteAssign depth = some u) ∧
      u.nodes.countP isLookup = t.nodes.countP isLookup + t.nodes.countP isAssign ∧
      Replaced Expands t u := by
  refine ⟨expandAssigns t, fun depth h => prewalk_rewriteAssign t h, assign?_nodes_expand t,
    fun depth h => ?_, countP_isLookup_expandAssigns t, replaced_expandAssigns t⟩
  rw [prewalk_rewriteAssign _ h, expandAssigns_expandAssigns]

theorem prewalk_expands_pair : ∃ u,
    (Tree.pair (fetchAssign "x" {}) (.list [.call (.str "@") {} [.ref (.str "y") {}]])).prewalk
        rewriteAssign 6 = some u ∧
      (∀ v ∈ u.nodes, assign? v = none) ∧ u.prewalk rewriteAssign (u.depth + 1) = some u ∧
      u.nodes.countP isLookup = 2 := by
  obtain ⟨u, hwalk, hforms, hagain, hcount, -⟩ := prewalk_expands
    (.pair (fetchAssign "x" {}) (.list [.call (.str "@") {} [.ref (.str "y") {}]]))
  exact ⟨u, hwalk 6 (by decide), hforms, hagain _ (Nat.lt_succ_self _), hcount.trans (by decide)⟩

end Template.Engine

end EmbeddedTemplate
