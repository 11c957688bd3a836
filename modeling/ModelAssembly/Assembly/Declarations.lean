import ModelAssembly.Assembly.Outcome
import ModelAssembly.Member
/-!
The declarations of a model and its imports: the global facets and members and the species and
experiments of all their syntax trees. Trees count from the last import to the primary model and
what comes later wins, so that the primary model overrides its imports and, within a tree, a later
declaration an earlier one.
-/

namespace ModelAssembly

-- A species or an experiment at the top of a tree.
structure Declaration where
  element : Element
  -- The model that the tree declares.
  origin : String

structure Declarations where
  facets : Facets := ∅
  species : OrderedMap String Declaration := ∅
  experiments : OrderedMap String Declaration := ∅
  -- Global members, those of the primary model last.
  members : List Member := []

namespace Declarations

-- `current` replaces a declaration of the same model.
def duplicate (kind : DescriptionKind) (name : String) (previous current : Element) :
    Diagnostic where
  severity := .error
  code := some (if kind = .experiment then .duplicateExperiment else .duplicateSpecies)
  message := s!"{kind.text} `{name}` is declared twice"
  labels := [.primary current.provenance "duplicate declaration",
    .secondary previous.provenance "first declared here"]
  help := some "remove the duplicate or use a different name"
  onExperiment := kind = .experiment

-- `current` replaces a declaration of another model.
def supersedes (kind : DescriptionKind) (name : String) (previous : Declaration)
    (current : Element) : Diagnostic where
  severity := .info
  code := some .superseded
  message :=
    let source := previous.element.provenance.file.getD previous.origin
    s!"{kind.text} `{name}` supersedes the one declared in {source}"
  labels := [.primary current.provenance "this declaration wins",
    .secondary previous.element.provenance "superseded declaration"]
  onExperiment := kind = .experiment

-- What there is to say about `current`, declared in the model `origin`, taking the place of
-- `previous`.
def collision (kind : DescriptionKind) (name origin : String) (previous : Declaration)
    (current : Element) : Diagnostic :=
  if previous.origin = origin then duplicate kind name previous.element current
  else supersedes kind name previous current

-- Adds `element` to a table of declarations of a kind; it replaces one of the same name.
def declare (kind : DescriptionKind) (origin : String)
    (table : OrderedMap String Declaration × List Diagnostic) (element : Element) :
    OrderedMap String Declaration × List Diagnostic :=
  let name := element.nameOrKeyword
  let previous? := table.1.get? name
  (table.1.insert name ⟨element, origin⟩,
    table.2 ++ (previous?.map fun previous => collision kind name origin previous element).toList)

-- The global members that `scope` declares, marked with the model that declares them.
def globalMembers (origin : String) (scope : Element) : List Member :=
  (Member.declaredIn scope).map (·.setFacet Keyword.origin origin)

-- Adds what one global scope declares: its species, then its experiments.
def addScope (origin : String) (ds : Declarations × List Diagnostic) (scope : Element) :
    Declarations × List Diagnostic :=
  let species := scope.speciesDeclarations.foldl (declare .species origin) (ds.1.species, ds.2)
  let experiments :=
    scope.experiments.foldl (declare .experiment origin) (ds.1.experiments, species.2)
  ({ facets := ds.1.facets.merge scope.facets
     species := species.1
     experiments := experiments.1
     members := ds.1.members ++ globalMembers origin scope },
    experiments.2)

-- The scopes of a tree: its top, then the global blocks directly under it.
def scopes (tree : Element) : List Element := tree :: tree.globals

def addTree (ds : Declarations × List Diagnostic) (tree : Element) :
    Declarations × List Diagnostic :=
  (scopes tree).foldl (addScope tree.modelName) ds

-- The declarations of `trees`, the primary one first, and a diagnostic for each that was
-- overwritten.
def ofTrees (trees : List Element) : Declarations × List Diagnostic :=
  trees.reverse.foldl addTree ({}, [])

-- All that was declared, species before experiments.
def all (ds : Declarations) : List Declaration := ds.species.values ++ ds.experiments.values

end Declarations
end ModelAssembly
