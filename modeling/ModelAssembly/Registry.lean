import ModelAssembly.Description
/-!
The registry of built-in descriptions. Each is stored with the members of its built-in ancestors,
so that a description inherits everything from a built-in parent in one merge.
-/

namespace ModelAssembly

structure Registry where
  species : OrderedMap String Description
  experiments : OrderedMap String Description
  models : OrderedMap String Description
deriving BEq

namespace Registry

private def withMembers (d : Description) (ms : List Member) : Description :=
  { d with members := .ofList (ms.map fun m => (m.key, m)) }

private def typed (name type : String) : Member :=
  { role := .var, name, facets := (∅ : Facets).insert Keyword.type type }

-- The generic base species.
def agent : Description :=
  withMembers (.builtIn .species .species Keyword.agent)
    [typed "name" "string", typed "location" "point", typed "shape" "geometry",
      { role := .action, name := "die" }]

-- The generic base experiment.
def experiment : Description :=
  withMembers (.builtIn .experiment .experiment Keyword.experiment)
    [typed "seed" "float", { role := .action, name := "step" }]

-- The root model, which inherits from the generic base species.
def rootModel : Description :=
  let d := withMembers (.builtIn .model .model Keyword.model (some Keyword.agent))
    [typed "cycle" "int", typed "time" "float", typed "step" "float",
      { role := .action, name := "pause" }]
  { d with members := (d.inheritable agent.name agent.members.values).merge d.members }

def defaults : Registry where
  species := (∅ : OrderedMap String Description).insert agent.name agent
  experiments := (∅ : OrderedMap String Description).insert experiment.name experiment
  models := (∅ : OrderedMap String Description).insert rootModel.name rootModel

-- Adds a species, with the members of its built-in parent if that is a registered species. One
-- that names no parent extends the generic base species.
def addSpecies (r : Registry) (d : Description) : Except ModelError Registry := do
  let parent := match d.parent with
    | some (.builtIn name) => name
    | _ => Keyword.agent
  let d ← match r.species.get? parent with
    | some p => d.inheritMembers p.name p.members.values
    | none => pure d
  return { r with species := r.species.insert d.name d }

-- Adds a model, with the members of the root model.
def addModel (r : Registry) (d : Description) : Except ModelError Registry := do
  let d ← match r.models.get? Keyword.model with
    | some root => d.inheritMembers root.name root.members.values
    | none => pure d
  return { r with models := r.models.insert d.name d }

-- The description of a name: a species before an experiment, an experiment before a model.
def lookup (r : Registry) (name : String) : Option Description :=
  (r.species.get? name).or ((r.experiments.get? name).or (r.models.get? name))

end Registry
end ModelAssembly
