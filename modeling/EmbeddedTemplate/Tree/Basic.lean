import EmbeddedTemplate.Number.Binary64

namespace EmbeddedTemplate

structure Annotation where
  line : Option Int := none
  noParens : Option Bool := none
deriving DecidableEq, Repr, Inhabited

/--
An expression tree. The target of a call is a name, held as a string literal, or any other tree.
-/
inductive Tree
  | nil
  | bool (b : Bool)
  | int (n : Int)
  | float (x : Binary64)
  | str (s : String)
  | atom (name : String)
  | pair (left right : Tree)
  /-- A call without argument list, such as a variable. -/
  | ref (target : Tree) (note : Annotation)
  | call (target : Tree) (note : Annotation) (args : List Tree)
  | list (items : List Tree)
  /-- A sequence that no walk enters: the buffer of an engine that records what it is given. -/
  | sealed (items : List Tree)
deriving Repr, Inhabited

namespace Tree

mutual

def beq : Tree → Tree → Bool
  | .nil, .nil => true
  | .bool a, .bool b => a = b
  | .int m, .int n => m = n
  | .float x, .float y => x = y
  | .str s, .str t => s = t
  | .atom a, .atom b => a = b
  | .pair l r, .pair l' r' => l.beq l' && r.beq r'
  | .ref t n, .ref t' n' => t.beq t' && n = n'
  | .call t n as, .call t' n' as' => t.beq t' && n = n' && beqAll as as'
  | .list ts, .list us => beqAll ts us
  | .sealed ts, .sealed us => beqAll ts us
  | _, _ => false

def beqAll : List Tree → List Tree → Bool
  | [], [] => true
  | t :: ts, u :: us => t.beq u && beqAll ts us
  | _, _ => false

end

mutual

theorem beq_iff_eq : ∀ t u : Tree, t.beq u ↔ t = u
  | .pair l r, u => by cases u <;> simp [beq, beq_iff_eq l, beq_iff_eq r]
  | .ref t _, u => by cases u <;> simp [beq, beq_iff_eq t]
  | .call t _ as, u => by cases u <;> simp [beq, beq_iff_eq t, beqAll_iff_eq as, and_assoc]
  | .list ts, u | .sealed ts, u => by cases u <;> simp [beq, beqAll_iff_eq ts]
  | .nil, u | .bool _, u | .int _, u | .float _, u | .str _, u | .atom _, u => by
    cases u <;> simp [beq]

theorem beqAll_iff_eq : ∀ ts us : List Tree, beqAll ts us ↔ ts = us
  | [], us => by cases us <;> simp [beqAll]
  | t :: ts, us => by cases us <;> simp [beqAll, beq_iff_eq t, beqAll_iff_eq ts]

end

instance : DecidableEq Tree := fun t u => decidable_of_iff _ (beq_iff_eq t u)

def isName : Tree → Bool
  | .str _ => true
  | _ => false

def isCall : Tree → Bool
  | .ref _ _ | .call _ _ _ => true
  | _ => false

def line? : Tree → Option Int
  | .ref _ note => note.line
  | .call _ note _ => note.line
  | _ => none

def var (name : String) (note : Annotation := {}) : Tree := .ref (.str name) note

def named (name : String) (args : List Tree) (note : Annotation := {}) : Tree :=
  .call (.str name) note args

def moduleName (parts : List String) (note : Annotation := {}) : Tree :=
  named "__aliases__" (parts.map .atom) note

def remote (owner : Tree) (name : String) (args : List Tree) (note : Annotation := {}) : Tree :=
  .call (named "." [owner, .atom name] note) note args

@[simp] theorem line?_var (name : String) (note : Annotation) :
    (var name note).line? = note.line := rfl

@[simp] theorem line?_named (name : String) (args : List Tree) (note : Annotation) :
    (named name args note).line? = note.line := rfl

@[simp] theorem line?_remote (owner : Tree) (name : String) (args : List Tree)
    (note : Annotation) : (remote owner name args note).line? = note.line := rfl

end Tree

end EmbeddedTemplate
