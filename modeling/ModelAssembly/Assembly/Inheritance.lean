import ModelAssembly.Model.Basic
/-!
Inheritance: the members of a parent are merged down into a description. The parent's own merge
must have happened before.
-/

namespace ModelAssembly.Model

-- Gives the description at `i` the members of its parent that it does not shadow.
def inherit (m : Model) (i : Nat) : Except ModelError Model := do
  let _ ← m.get i
  match m.parentOf i with
  | none => return m
  | some parent => m.modify i (·.inheritMembers parent.name parent.members.values)

end ModelAssembly.Model
