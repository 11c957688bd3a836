import ModelAssembly.Element
/-!
Diagnostics: what assembly has to say about the declarations it was given. A diagnostic points at
declarations by where they were read from.
-/

namespace ModelAssembly

-- From the gravest to the slightest.
inductive Severity where
  | error
  | warning
  | info
deriving DecidableEq, Ord

namespace Severity

def text : Severity → String
  | error => "error"
  | warning => "warning"
  | info => "info"

def ofText? (s : String) : Option Severity := [error, warning, info].find? (·.text == s)

end Severity

-- What a diagnostic is about.
inductive Code where
  | missingPlugin
  | duplicateSpecies
  | duplicateExperiment
  | superseded
  | inconsistentHierarchy
  | duplicateMicro
  | duplicateMember
  | abstractAction
  | extendsExperiment
  | experimentType
deriving DecidableEq

namespace Code

def all : List Code :=
  [missingPlugin, duplicateSpecies, duplicateExperiment, superseded, inconsistentHierarchy,
    duplicateMicro, duplicateMember, abstractAction, extendsExperiment, experimentType]

-- Codes from `E001` are about pragmas, from `E100` about structure, from `E301` about
-- finalization.
def text : Code → String
  | missingPlugin => "E001"
  | duplicateSpecies => "E100"
  | duplicateExperiment => "E101"
  | superseded => "E102"
  | inconsistentHierarchy => "E103"
  | duplicateMicro => "E104"
  | duplicateMember => "E105"
  | abstractAction => "E301"
  | extendsExperiment => "E302"
  | experimentType => "E303"

def ofText? (s : String) : Option Code := all.find? (·.text == s)

def meaning : Code → String
  | missingPlugin => "required plugin unavailable"
  | duplicateSpecies => "duplicate species declaration"
  | duplicateExperiment => "duplicate experiment declaration"
  | superseded => "declaration supersedes an imported one"
  | inconsistentHierarchy => "inconsistent hierarchy"
  | duplicateMicro => "duplicate micro-species declaration"
  | duplicateMember => "duplicate member"
  | abstractAction => "abstract action in concrete description"
  | extendsExperiment => "species inherits from an experiment"
  | experimentType => "invalid experiment type"

end Code

structure Label where
  isPrimary : Bool
  provenance : Provenance
  message : String
deriving DecidableEq

namespace Label

-- Points at where the problem is.
def primary (provenance : Provenance) (message : String) : Label :=
  ⟨true, provenance, message⟩

-- Points at a declaration that bears on the problem.
def secondary (provenance : Provenance) (message : String) : Label :=
  ⟨false, provenance, message⟩

end Label

structure Diagnostic where
  severity : Severity
  code : Option Code := none
  message : String
  labels : List Label := []
  help : Option String := none
  -- Raised on an experiment.
  onExperiment : Bool := false
deriving DecidableEq

namespace Diagnostic

def isError (d : Diagnostic) : Bool := d.severity == .error

-- The severity, the code if there is one, and the message.
def text (d : Diagnostic) : String :=
  let code := (d.code.map fun c => s!"[{c.text}]").getD ""
  s!"{d.severity.text}{code}: {d.message}"

end Diagnostic
end ModelAssembly
