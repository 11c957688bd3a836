import ModelAssembly.Assembly.Outcome
/-!
The settings of an assembler, and the plugins that a model requires.
-/

namespace ModelAssembly

structure AssemblySettings where
  -- Refuse a model that requires a plugin which is not available.
  enforceRequiredPlugins : Bool := false
  availablePlugins : OrderedSet String := ∅
  -- Move global scheduling facets to a species of their own.
  legacyScheduling : Bool := true
deriving BEq

namespace AssemblySettings

-- The plugins that the pragmas of `primary` require in vain, in the order in which it lists them.
def missingPlugins (s : AssemblySettings) (primary : Element) : List String :=
  if s.enforceRequiredPlugins then
    ((primary.pragmas.get? Keyword.requires).getD []).filter fun plugin =>
      !s.availablePlugins.contains plugin
  else
    []

def missingPlugin (primary : Element) (plugin : String) : Diagnostic where
  severity := .error
  code := some .missingPlugin
  message := s!"plugin `{plugin}` is required but not available"
  labels := [.primary primary.provenance "required by this model"]
  help := some "install the plugin or remove it from the `requires` pragma"

def checkPlugins (s : AssemblySettings) (primary : Element) : Outcome Unit :=
  match s.missingPlugins primary with
  | [] => pure ()
  | missing => do
    .report (missing.map (missingPlugin primary))
    .fail (.missingPlugins primary.modelName missing)

end AssemblySettings
end ModelAssembly
