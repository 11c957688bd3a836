import ModelAssembly.Assembly.Hierarchy
import ModelAssembly.Assembly.Inheritance
import ModelAssembly.Assembly.OwnMembers
import ModelAssembly.Assembly.ParentLinks
import ModelAssembly.Assembly.Plugins
import ModelAssembly.Assembly.Scheduler
import ModelAssembly.Assembly.Validation
import ModelAssembly.Diagnostic.Collector
/-!
The assembler links the syntax trees of a model and of everything it imports into one model.

Main operations: `Assembler.assemble` gives the model or the reason why there is none, with all
diagnostics; `Assembler.assembleInto` passes the diagnostics to a collector, under the filter that
the model asks for.
-/

namespace ModelAssembly

structure Assembler where
  settings : AssemblySettings := {}
  registry : Registry := .defaults

-- What is to be assembled.
structure Request where
  -- The name under which the model is asked for.
  primary : String
  projectPath : String := ""
  modelPath : String := ""
  -- The primary tree, then the imported ones.
  trees : List Element := []
  -- Finalized models, by the names under which they are grafted.
  grafts : OrderedMap String Model := ∅

namespace Request

-- The files of the trees, those of the last import first.
def files (r : Request) : List String := r.trees.reverse.filterMap (·.provenance.file)

end Request

namespace Assembler

-- The root of a model, with the merged global facets and no members.
def rootDescription (a : Assembler) (primary : Element) (facets : Facets) :
    Except ModelError Description := do
  let d := Description.new .model .model primary.modelName facets
  let d ← d.setParent (a.registry.modelParent (facets.get? Keyword.parent))
  let d ← d.setOrigin primary.modelName
  d.setProvenance primary.provenance

-- The model of a request, with nothing in it but its root.
def emptyModel (a : Assembler) (r : Request) (primary : Element) (imports : List Element)
    (facets : Facets) : Except ModelError Model := do
  let m ← Model.ofRoot (← a.rootDescription primary facets) a.registry
  return { m with
    knownAs := some r.primary
    projectPath := r.projectPath
    modelPath := r.modelPath
    importedModels := .ofList (imports.map (·.modelName))
    alternatePaths := .ofList r.files }

def addGraft (m : Model) (graft : String × Model) : Outcome Model :=
  .ofExcept ((m.graft graft.1 graft.2).mapError (.graftRefused graft.1 graft.2.name))

def inheritAll (m : Model) (order : List Nat) : Outcome Model :=
  .ofModel (order.foldlM (·.inherit ·) m)

-- Merges members down into an experiment and finalizes it. An experiment that fails ends the
-- assembly.
def concludeExperiment (m : Model) (i : Nat) : Outcome Model := do
  let m ← .ofModel (m.inherit i)
  let (m, passed) ← m.finalize i
  if passed then
    return m
  let d ← .ofModel (m.get i)
  .fail (.experimentFailed d.name)

-- Fills the empty model: grafts, then descriptions, their parents and their own members.
def populate (m : Model) (r : Request) (ds : Declarations) : Outcome Model := do
  let m ← r.grafts.entries.foldlM addGraft m
  let p ← Placement.ofDeclarations m ds
  let m ← .ofModel p.linkParents
  m.addOwnMembers ds.members p.nodes

-- Merges members down the hierarchy, parents before children, and finalizes the experiments.
def mergeDown (m : Model) : Outcome Model := do
  let m ← .ofModel (m.inherit Model.rootIndex)
  let (m, species) ← m.linearize .species
  let m ← inheritAll m species
  let (m, experiments) ← m.linearize .experiment
  experiments.foldlM concludeExperiment m

-- Adds the scheduler and the types, and finalizes what is still open.
def conclude (a : Assembler) (m : Model) : Outcome Model := do
  let m ← .ofModel (if a.settings.legacyScheduling then m.addScheduler else .ok m)
  let (m, passed) ← (← .ofModel m.buildTypes).finalizeAll
  if passed then
    return m
  .fail (.modelFailed m.name)

def assemble (a : Assembler) (r : Request) : Outcome Model :=
  match r.trees with
  | [] => .fail .emptyInput
  | primary :: imports => do
    a.settings.checkPlugins primary
    let (ds, collisions) := Declarations.ofTrees r.trees
    .report collisions
    let m ← .ofModel (a.emptyModel r primary imports ds.facets)
    a.conclude (← mergeDown (← populate m r ds))

-- The filter stays as it is when there is no primary tree to set it.
def assembleInto (a : Assembler) (r : Request) (c : Collector) :
    Except AssemblyError Model × Collector :=
  let outcome := a.assemble r
  let c := match r.trees.head? with
    | some primary => c.setFilter (.ofPragmas primary)
    | none => c
  (outcome.result, c.emitAll outcome.diagnostics)

end Assembler
end ModelAssembly
