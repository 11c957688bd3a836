/-!
The names that the modeling language reserves: facets, built-in descriptions and pragmas, and the
name a model gets from the title of its syntax tree.
-/

namespace ModelAssembly.Keyword

-- The facet that names the parent of a species, an experiment or a model.
def parent := "parent"

-- The facet that marks a species, an experiment or an action as abstract.
def virtual := "virtual"

-- Global scheduling facet.
def schedules := "schedules"

-- Global scheduling facet.
def frequency := "frequency"

-- The facet that every global member carries: the name of the model it was declared in.
def origin := "origin"

-- The facet that holds the type of an experiment.
def type := "type"

-- The generic base species.
def agent := "agent"

-- The generic base experiment.
def experiment := "experiment"

-- The root model.
def model := "model"

-- The species that takes over the global scheduling facets.
def scheduler := "_internal_global_scheduler"

-- The pragma that drops informational diagnostics.
def noInfo := "no_info"

-- The pragma that drops warnings.
def noWarning := "no_warning"

-- The pragma that drops diagnostics on experiments, errors excepted.
def noExperiment := "no_experiment"

-- The pragma that lists the plugins a model needs.
def requires := "requires"

def experimentTypes : List String := ["gui", "batch", "test", "memorize", "headless"]

-- The name of the model that a tree with this title declares: its spaces become underscores, and
-- `_model` follows.
def modelName (title : String) : String :=
  String.ofList (title.toList.map fun c => if c = ' ' then '_' else c) ++ "_model"

end ModelAssembly.Keyword
