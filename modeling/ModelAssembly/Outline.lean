import ModelAssembly.Model.Basic
/-!
Outlines: a model as indented text. Each description has a line, followed by lines for its members
and by what it contains. Members inherited from built-in descriptions are left out.
-/

namespace ModelAssembly.Model

def indent (depth : Nat) : String := String.join (List.replicate depth "  ")

-- The line of the description at `i`.
def outlineHeader (m : Model) (i : Nat) (d : Description) : String :=
  let parent := ((m.parentName i).map (" : " ++ ·)).getD ""
  let graft := if d.isModel then (d.graftedFrom.map (" as " ++ ·)).getD "" else ""
  let mark := if d.isAbstract then " [virtual]" else ""
  d.declaredAs.keyword ++ " " ++ d.name ++ parent ++ graft ++ mark

-- The member comes from a built-in description.
def hides (m : Model) (member : Member) : Bool :=
  member.inheritedFrom.any fun name => (m.registry.lookup name).isSome

def outlineMember (member : Member) : String :=
  let source := (member.inheritedFrom.map fun name => s!" (from {name})").getD ""
  let mark := if member.isAbstract then " [virtual]" else ""
  member.role.text ++ " " ++ member.name ++ source ++ mark

def outlineLine (depth : Nat) (line : String) : String := indent depth ++ line ++ "\n"

-- The lines of one description, at its depth in the containment tree.
def outlineBlock (m : Model) (depth i : Nat) : String :=
  match m.get? i with
  | none => ""
  | some d =>
    outlineLine depth (m.outlineHeader i d) ++
      String.join ((d.members.values.filter fun member => !m.hides member).map fun member =>
        outlineLine (depth + 1) (outlineMember member))

-- The outline of `i` and of what it contains, so many levels down.
def outlineTo (m : Model) : Nat → Nat → Nat → String
  | 0, _, _ => ""
  | levels + 1, depth, i =>
    m.outlineBlock depth i ++ String.join ((m.microOf i).map (outlineTo m levels (depth + 1)))

def outline (m : Model) : String := m.outlineTo m.size 0 rootIndex

end ModelAssembly.Model
