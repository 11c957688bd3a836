import ModelAssembly.Model.Basic
/-!
The scheduler species. The facets `schedules` and `frequency` of a model move to a species of
their own at the end of the model, which is scheduled like any other.
-/

namespace ModelAssembly.Model

def relocated : List String := [Keyword.schedules, Keyword.frequency]

def hasSchedule (m : Model) : Bool := relocated.any m.root.facets.contains

-- Moves a facet of the root to `scheduler`, if the root has it.
def relocate (state : Model × Description) (facet : String) :
    Except ModelError (Model × Description) :=
  let (m, scheduler) := state
  match m.root.facets.get? facet with
  | none => .ok (m, scheduler)
  | some expression => do
    return (← m.modify rootIndex (·.removeFacet facet), ← scheduler.setFacet facet expression)

-- The scheduler species of `m`, without facets and members.
def emptyScheduler (m : Model) : Description :=
  { Description.new .species .species Keyword.scheduler ∅ with
    parent := some (.builtIn Keyword.agent)
    origin := some m.name
    provenance := m.root.provenance }

-- Adds the scheduler species, if the root has a facet for it.
def addScheduler (m : Model) : Except ModelError Model :=
  if m.hasSchedule then do
    let (m, scheduler) ← relocated.foldlM relocate (m, m.emptyScheduler)
    let scheduler ← match m.registry.species.get? Keyword.agent with
      | some agent => scheduler.inheritMembers agent.name agent.members.values
      | none => pure scheduler
    m.add rootIndex scheduler
  else
    return m

end ModelAssembly.Model
