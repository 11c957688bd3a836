import ModelAssembly.Member
/-!
Descriptions: what a model is assembled from. A description is the model itself, a species or an
experiment, and stands in two relations to others, which it names by their index in the model:

- containment: `owner` and `micro`;
- inheritance: `parent`.

A description that is finalized refuses every change.
-/

namespace ModelAssembly

inductive DescriptionKind where
  | model
  | species
  | experiment
deriving DecidableEq

namespace DescriptionKind

def text : DescriptionKind → String
  | model => "model"
  | species => "species"
  | experiment => "experiment"

-- The kind of description that a declaration gives rise to.
def ofElement? : ElementKind → Option DescriptionKind
  | .model => some model
  | .species | .grid => some species
  | .experiment => some experiment
  | .global | .member _ => none

end DescriptionKind

inductive ParentLink where
  -- The description at an index of the same model.
  | declared (index : Nat)
  | builtIn (name : String)
deriving DecidableEq

-- Why an operation on descriptions, or on the model that holds them, is refused.
inductive ModelError where
  | finalized (description : String)
  -- The owner of a new description does not exist.
  | unknown (index : Nat)
  | notFinalized (model : String)
  -- No description has the index.
  | outside (index : Nat)
  | rootKind (kind : DescriptionKind)
  -- A hierarchy that leads back to itself has no order.
  | cyclic
deriving DecidableEq

namespace ModelError

def message : ModelError → String
  | finalized name => s!"description `{name}` is finalized and can no longer be modified"
  | unknown index => s!"description #{index} does not exist in this model"
  | notFinalized name => s!"model `{name}` must be finalized before it can be grafted"
  | outside index => s!"no description has the index {index}"
  | rootKind kind => s!"the root of a model must be a model, not a {kind.text}"
  | cyclic => "the hierarchy leads back to itself"

end ModelError

structure Description where
  kind : DescriptionKind
  -- The kind of declaration that was written: a grid is described as a species.
  declaredAs : ElementKind
  name : String
  facets : Facets := ∅
  members : OrderedMap MemberKey Member := ∅
  -- Micro-species, experiments and grafted models.
  micro : List Nat := []
  parent : Option ParentLink := none
  owner : Option Nat := none
  isBuiltIn : Bool := false
  isAbstract : Bool := false
  -- The model that the description was declared in.
  origin : Option String := none
  provenance : Provenance := {}
  -- The name under which the model that the description comes from was grafted.
  graftedFrom : Option String := none
  isFinalized : Bool := false
deriving BEq

namespace Description

-- A description without members, parent or owner. Whether it is abstract is settled here, and
-- later changes to its facets leave that as it is.
def new (kind : DescriptionKind) (declaredAs : ElementKind) (name : String) (facets : Facets) :
    Description :=
  { kind, declaredAs, name, facets, isAbstract := facets.isTrue Keyword.virtual }

-- The description of a declared species or experiment, without its members.
def shell? (e : Element) : Option Description :=
  match DescriptionKind.ofElement? e.kind with
  | none | some .model => none
  | some kind => some { new kind e.kind e.nameOrKeyword e.facets with provenance := e.provenance }

def builtIn (kind : DescriptionKind) (declaredAs : ElementKind) (name : String)
    (parent : Option String := none) : Description :=
  { new kind declaredAs name ∅ with isBuiltIn := true, parent := parent.map .builtIn }

def isModel (d : Description) : Bool := d.kind == .model

def isExperiment (d : Description) : Bool := d.kind == .experiment

-- Part of the model that holds it, rather than of one that was grafted.
def isOwn (d : Description) : Bool := d.graftedFrom.isNone

def hasMember (d : Description) (key : MemberKey) : Bool := d.members.contains key

-- Changes `d`, which must still be open.
def edit (d : Description) (change : Description → Description) : Except ModelError Description :=
  if d.isFinalized then .error (.finalized d.name) else .ok (change d)

def setParent (d : Description) (parent : ParentLink) : Except ModelError Description :=
  d.edit ({ · with parent := some parent })

def setOrigin (d : Description) (origin : String) : Except ModelError Description :=
  d.edit ({ · with origin := some origin })

def setProvenance (d : Description) (provenance : Provenance) : Except ModelError Description :=
  d.edit ({ · with provenance })

def setFacet (d : Description) (name expression : String) : Except ModelError Description :=
  d.edit fun d => { d with facets := d.facets.insert name expression }

def removeFacet (d : Description) (name : String) : Except ModelError Description :=
  d.edit fun d => { d with facets := d.facets.erase name }

-- A member of the same role and name is replaced.
def addMember (d : Description) (m : Member) : Except ModelError Description :=
  d.edit fun d => { d with members := d.members.insert m.key m }

def addMicro (d : Description) (index : Nat) : Except ModelError Description :=
  d.edit fun d => { d with micro := d.micro ++ [index] }

-- The copies that `d` gets of the members of `parent`, leaving out those that it shadows.
def inheritable (d : Description) (parent : String) (ms : List Member) :
    OrderedMap MemberKey Member :=
  .ofList ((ms.filter fun m => !d.hasMember m.key).map fun m => (m.key, m.inheritedVia parent))

-- How many copies that are.
def inheritedCount (d : Description) (parent : String) (ms : List Member) : Nat :=
  (d.inheritable parent ms).size

-- Merges the members of `parent` down into `d`, in front of the members that `d` has.
def inheritMembers (d : Description) (parent : String) (ms : List Member) :
    Except ModelError Description :=
  d.edit fun d => { d with members := (d.inheritable parent ms).merge d.members }

-- Locks `d`.
def close (d : Description) : Description := { d with isFinalized := true }

-- `d` as it stands in a model in which its own model was grafted under `graft`, behind `offset`
-- other descriptions. The grafted root gets the new `owner`.
def shift (d : Description) (offset : Nat) (owner : Option Nat) (graft : String) : Description :=
  { d with
    owner := owner.or (d.owner.map (· + offset))
    micro := d.micro.map (· + offset)
    parent := d.parent.map fun
      | .declared index => .declared (index + offset)
      | .builtIn name => .builtIn name
    graftedFrom := some graft }

theorem edit_eq_ok_iff {d d' : Description} {change : Description → Description} :
    d.edit change = .ok d' ↔ d.isFinalized = false ∧ change d = d' := by
  unfold edit
  cases d.isFinalized <;> simp

theorem edit_eq_error_iff {d : Description} {change : Description → Description}
    {e : ModelError} : d.edit change = .error e ↔ d.isFinalized = true ∧ e = .finalized d.name := by
  unfold edit
  cases d.isFinalized <;> simp [eq_comm]

end Description
end ModelAssembly
