import ModelAssembly.Assembly.Outcome
import ModelAssembly.Model.Basic
/-!
Validation: what must hold of a description before it is finalized. A concrete description has no
abstract action, a species extends no experiment, and an experiment has one of the known types.
-/

namespace ModelAssembly

namespace Description

def extendsExperiment (d parent : Description) : Diagnostic where
  severity := .error
  code := some .extendsExperiment
  message := s!"species `{d.name}` cannot extend experiment `{parent.name}`"
  labels := [.primary d.provenance "declared here"]
  help := some "species may only extend other species"

def lacksAction (d : Description) (action : Member) : Diagnostic where
  severity := .error
  code := some .abstractAction
  message := s!"{d.kind.text} `{d.name}` must redefine abstract action `{action.name}`"
  labels := [.primary d.provenance "declared here",
    let declaredIn := action.inheritedFrom.getD d.name
    .secondary action.provenance s!"abstract action declared in `{declaredIn}`"]
  help := some s!"redefine `{action.name}` or mark `{d.name}` as `virtual: true`"
  onExperiment := d.isExperiment

def unknownType (d : Description) (type : String) : Diagnostic where
  severity := .error
  code := some .experimentType
  message := s!"experiment `{d.name}` has unknown type `{type}`"
  labels := [.primary d.provenance "declared here"]
  help := some ("use one of: " ++ ", ".intercalate Keyword.experimentTypes)
  onExperiment := d.isExperiment

-- The experiment that the species `d` extends, if its parent is one.
def experimentParent (d : Description) (parent : Option Description) : Option Description :=
  if d.kind = .species then parent.filter (·.isExperiment) else none

def abstractActions (d : Description) : List Member :=
  if d.isAbstract then [] else d.members.values.filter (·.isAbstract)

def badType (d : Description) : Option String :=
  if d.isExperiment then
    (d.facets.get? Keyword.type).filter fun type => !Keyword.experimentTypes.contains type
  else
    none

-- What is wrong with `d`, whose parent is `parent`.
def problems (d : Description) (parent : Option Description) : List Diagnostic :=
  ((d.experimentParent parent).map d.extendsExperiment).toList ++
    d.abstractActions.map d.lacksAction ++
    (d.badType.map d.unknownType).toList

end Description

namespace Model

-- Finalizes the description at `i` and tells whether nothing was wrong with it. One that is
-- finalized already passes.
def finalize (m : Model) (i : Nat) : Outcome (Model × Bool) := do
  let d ← .ofModel (m.get i)
  if d.isFinalized then
    return (m, true)
  let problems := d.problems (m.parentOf i)
  .report problems
  return (m.set i d.close, problems.isEmpty)

-- Finalizes the content of the root, and then the root, which alone decides whether the model
-- passes.
def finalizeAll (m : Model) : Outcome (Model × Bool) := do
  let m ← ((m.walk rootIndex).drop 1).foldlM (fun m i => do return (← m.finalize i).1) m
  m.finalize rootIndex

end Model
end ModelAssembly
