import EmbeddedTemplate.Fault
import EmbeddedTemplate.Tree.Basic

/-!
Placeholders hold the places of sections in the code of a block. The code is parsed with a call of
the reserved name in each place, and the calls are replaced by what the sections hold.
-/

namespace EmbeddedTemplate.Template

def placeholder (key : Int) : String := " " ++ reservedName ++ "(" ++ toString key ++ ");"

def placeholderKey? : Tree → Option Int
  | .call (.str name) _ [.int key] => if name = reservedName then some key else none
  | _ => none

def lookup (sections : List Tree) (key : Int) : Except Fault Tree :=
  match if key < 0 then none else sections[key.toNat]? with
  | some t => .ok t
  | none => .error (.noSection key)

mutual

/-- Replaces all placeholders in a tree, but not those in what is put in. -/
def substitute (sections : List Tree) : Tree → Except Fault Tree
  | .call (.str name) note [.int key] =>
    if name = reservedName then lookup sections key
    else return .call (.str name) note [.int key]
  | .call target note args => do
    let target ← substitute sections target
    return .call target note (← substituteAll sections args)
  | .ref target note => return .ref (← substitute sections target) note
  | .pair left right => do
    let left ← substitute sections left
    return .pair left (← substitute sections right)
  | .list items => return .list (← substituteAll sections items)
  | leaf => return leaf

def substituteAll (sections : List Tree) : List Tree → Except Fault (List Tree)
  | [] => return []
  | t :: ts => do
    let t ← substitute sections t
    return t :: (← substituteAll sections ts)

end

end EmbeddedTemplate.Template
