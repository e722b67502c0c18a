import EmbeddedTemplate.Tree.Basic

/-!
Rewriting a tree from the top: a step is applied to a node before its children, and the walk goes on
into whatever the step returned. Such a walk need not end, so it is given the depth it may reach.
-/

namespace EmbeddedTemplate.Tree

def prewalk (step : Tree → Tree) : (depth : Nat) → Tree → Option Tree
  | 0, _ => none
  | depth + 1, t =>
    match step t with
    | .call target note args => do
      let target ← if target.isName then pure target else prewalk step depth target
      return .call target note (← args.mapM (prewalk step depth))
    | .ref target note => do
      let target ← if target.isName then pure target else prewalk step depth target
      return .ref target note
    | .pair left right => do
      let left ← prewalk step depth left
      return .pair left (← prewalk step depth right)
    | .list items => do
      return .list (← items.mapM (prewalk step depth))
    | leaf => some leaf

def visits (step : Tree → Tree) : (depth : Nat) → Tree → List Tree
  | 0, _ => []
  | depth + 1, t =>
    let visitTarget (target : Tree) := if target.isName then [] else visits step depth target
    t :: match step t with
      | .call target _ args => visitTarget target ++ args.flatMap (visits step depth)
      | .ref target _ => visitTarget target
      | .pair left right => visits step depth left ++ visits step depth right
      | .list items => items.flatMap (visits step depth)
      | _ => []

mutual

def depth : Tree → Nat
  | .pair left right => max left.depth right.depth + 1
  | .ref target _ => target.depth + 1
  | .call target _ args => max target.depth (depths args) + 1
  | .list items => depths items + 1
  | .sealed items => depths items + 1
  | _ => 1

def depths : List Tree → Nat
  | [] => 0
  | t :: ts => max t.depth (depths ts)

end

def whole? : Tree → Option Int
  | .bool b => some (if b then 1 else 0)
  | .int n => some n
  | _ => none

def alikeNumber : Tree → Tree → Bool
  | .float x, .float y => x.same y
  | .float x, t => t.whole?.isSome && t.whole? == x.toInt?
  | t, .float y => t.whole?.isSome && t.whole? == y.toInt?
  | t, u => t.whole?.isSome && t.whole? == u.whole?

mutual

def alike : Tree → Tree → Bool
  | .nil, .nil => true
  | .str s, .str t => s = t
  | .atom a, .atom b => a = b
  | .pair l r, .pair l' r' => l.alike l' && r.alike r'
  | .ref t n, .ref t' n' => t.alike t' && n = n'
  | .call t n as, .call t' n' as' => t.alike t' && n = n' && alikeAll as as'
  | .list ts, .list us => alikeAll ts us
  | .sealed ts, .sealed us => alikeAll ts us
  | t, u => alikeNumber t u

def alikeAll : List Tree → List Tree → Bool
  | [], [] => true
  | t :: ts, u :: us => t.alike u && alikeAll ts us
  | _, _ => false

end

/-- Alike trees whose top nodes are of the same kind: `1`, `1.0` and `true` are three kinds. -/
def Matches : Tree → Tree → Bool
  | .bool a, .bool b => a = b
  | .int m, .int n => m = n
  | .float x, .float y => x.same y
  | .bool _, _ | .int _, _ | .float _, _ => false
  | _, .bool _ | _, .int _ | _, .float _ => false
  | t, u => t.alike u

def rewriteOnce (rules : List (Tree × Tree)) (t : Tree) : Tree :=
  match rules.find? fun rule => Matches rule.1 t with
  | some (_, new) => new
  | none => t

/--
A depth that suffices for every walk with these rules that ends: on one path no rule applies twice,
because the walk below the second replacement would repeat the walk below the first.
-/
def walkDepth (rules : List (Tree × Tree)) (t : Tree) : Nat :=
  rules.foldl (fun depth rule => depth + rule.2.depth) t.depth + 1

end EmbeddedTemplate.Tree
