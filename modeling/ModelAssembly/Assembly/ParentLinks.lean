import ModelAssembly.Assembly.Placement
/-!
Parent links: whom each placed description extends. A `parent` facet may name a declaration
anywhere in the model, before or after its own; what it names in vain leaves the generic base.
-/

namespace ModelAssembly

namespace Registry

-- The built-in model that a model extends: the requested one if it is registered, or else the
-- root model.
def modelParent (r : Registry) (requested : Option String) : ParentLink :=
  .builtIn ((requested.filter fun name => (r.models.get? name).isSome).getD Keyword.model)

end Registry

namespace Placement

-- A species extends whatever placed description goes by the requested name, or else a built-in
-- species of that name.
def speciesParent (p : Placement) (d : Description) : ParentLink :=
  match d.facets.get? Keyword.parent with
  | none => .builtIn Keyword.agent
  | some requested =>
    match p.indices.get? requested with
    | some i => .declared i
    | none =>
      if (p.model.registry.species.get? requested).isSome then .builtIn requested
      else .builtIn Keyword.agent

-- An experiment extends only an experiment.
def experimentParent (p : Placement) (d : Description) : ParentLink :=
  let requested := (d.facets.get? Keyword.parent).bind p.indices.get?
  match requested.filter fun i => (p.model.get? i).any (·.isExperiment) with
  | some i => .declared i
  | none => .builtIn Keyword.experiment

def parentLink (p : Placement) (d : Description) : ParentLink :=
  if d.isExperiment then p.experimentParent d else p.speciesParent d

-- Links every placed description to its parent.
def linkParents (p : Placement) : Except ModelError Model :=
  p.nodes.foldlM (fun m (i, _) => m.modify i fun d => d.setParent (p.parentLink d)) p.model

end Placement
end ModelAssembly
