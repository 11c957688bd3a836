import ModelAssembly.Diagnostic.Basic
/-!
Filters and collectors of diagnostics. Pragmas of a model set the filter; it never drops an error.
-/

namespace ModelAssembly

structure Filter where
  noInfo : Bool := false
  noWarning : Bool := false
  noExperiment : Bool := false
deriving DecidableEq, Inhabited

namespace Filter

-- The filter that the pragmas of a syntax tree ask for.
def ofPragmas (tree : Element) : Filter where
  noInfo := tree.pragmas.contains Keyword.noInfo
  noWarning := tree.pragmas.contains Keyword.noWarning
  noExperiment := tree.pragmas.contains Keyword.noExperiment

def admits (f : Filter) (d : Diagnostic) : Bool :=
  match d.severity with
  | .error => true
  | .warning => !f.noWarning && !(f.noExperiment && d.onExperiment)
  | .info => !f.noInfo && !(f.noExperiment && d.onExperiment)

end Filter

-- The diagnostics that got past the filters, in the order in which they came.
structure Collector where
  diagnostics : List Diagnostic := []
  filter : Filter := {}
  hasErrors : Bool := false
deriving DecidableEq, Inhabited

namespace Collector

def setFilter (c : Collector) (filter : Filter) : Collector := { c with filter }

def emit (c : Collector) (d : Diagnostic) : Collector :=
  if c.filter.admits d then
    { c with diagnostics := c.diagnostics ++ [d], hasErrors := c.hasErrors || d.isError }
  else
    c

def emitAll (c : Collector) (ds : List Diagnostic) : Collector := ds.foldl emit c

def errorCount (c : Collector) : Nat := c.diagnostics.countP Diagnostic.isError

theorem emitAll_eq (c : Collector) (ds : List Diagnostic) :
    c.emitAll ds =
      { c with
        diagnostics := c.diagnostics ++ ds.filter c.filter.admits
        hasErrors := c.hasErrors || (ds.filter c.filter.admits).any Diagnostic.isError } := by
  induction ds generalizing c with
  | nil => simp [emitAll]
  | cons d r ih =>
    have h : c.emitAll (d :: r) = (c.emit d).emitAll r := rfl
    rw [h, ih]
    by_cases ha : c.filter.admits d <;> simp [emit, ha, Bool.or_assoc]

end Collector
end ModelAssembly
