import ModelAssembly.Assembly.Assembler
/-!
Bundles: the syntax trees of a model together with the bundles of the models to graft. A bundle is
assembled after its grafts, which come in order; the first failure ends the whole assembly.
-/

namespace ModelAssembly

structure Bundle where
  -- The name under which the model is asked for.
  primary : String
  projectPath : String := ""
  modelPath : String := ""
  -- The primary tree, then the imported ones.
  models : List Element := []
  -- By the names under which they are grafted.
  grafts : List (String × Bundle) := []

namespace Bundle

-- What is asked of the assembler for a bundle. The files of trees count for all that is in them.
def request (b : Bundle) (grafts : List (String × Model)) : Request where
  primary := b.primary
  projectPath := b.projectPath
  modelPath := b.modelPath
  trees := b.models.map (·.inheritFile)
  grafts := .ofList grafts

mutual

def assembleInto (a : Assembler) (c : Collector) :
    Bundle → Except AssemblyError Model × Collector
  | ⟨primary, projectPath, modelPath, models, grafts⟩ =>
    match assembleGrafts a c grafts with
    | (.error e, c) => (.error e, c)
    | (.ok ms, c) => a.assembleInto (request ⟨primary, projectPath, modelPath, models, grafts⟩ ms) c

def assembleGrafts (a : Assembler) (c : Collector) :
    List (String × Bundle) → Except AssemblyError (List (String × Model)) × Collector
  | [] => (.ok [], c)
  | (name, b) :: r =>
    match assembleInto a c b with
    | (.error e, c) => (.error e, c)
    | (.ok m, c) =>
      match assembleGrafts a c r with
      | (.error e, c) => (.error e, c)
      | (.ok ms, c) => (.ok ((name, m) :: ms), c)

end

-- The model of a bundle, or the reason why there is none, and the diagnostics of all the models
-- involved.
def assemble (a : Assembler) (b : Bundle) : Outcome Model :=
  let (result, c) := assembleInto a {} b
  ⟨result, c.diagnostics⟩

end Bundle
end ModelAssembly
