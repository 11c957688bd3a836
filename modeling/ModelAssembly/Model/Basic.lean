import ModelAssembly.Model.TypeTable
import ModelAssembly.Registry
/-!
Models: the descriptions of a model in one list, in which they refer to each other by index. The
first is the model itself, the root of the containment tree; each other one has its owner before
it.

Operations that name an index where no description is are refused with `ModelError.outside`.
-/

namespace ModelAssembly

structure Model where
  descriptions : List Description
  nonempty : descriptions ≠ []
  -- The name that the model was asked for under.
  knownAs : Option String := none
  projectPath : String := ""
  modelPath : String := ""
  importedModels : OrderedSet String := ∅
  -- Further places where the resources of the model are looked for.
  alternatePaths : OrderedSet String := ∅
  -- The names of all species and experiments that the model declares.
  microSpeciesNames : OrderedSet String := ∅
  -- Where the root of each grafted model is.
  grafts : OrderedMap String Nat := ∅
  types : TypeTable := {}
  registry : Registry

namespace Model

-- Equality up to the order of named entries.
instance : BEq Model where
  beq m n :=
    m.descriptions == n.descriptions && m.knownAs == n.knownAs && m.projectPath == n.projectPath &&
      m.modelPath == n.modelPath && m.importedModels == n.importedModels &&
      m.alternatePaths == n.alternatePaths && m.microSpeciesNames == n.microSpeciesNames &&
      m.grafts == n.grafts && m.types == n.types && m.registry == n.registry

-- The index of the root.
def rootIndex : Nat := 0

def ofRoot (root : Description) (registry : Registry) : Except ModelError Model :=
  if root.isModel then
    .ok { descriptions := [root], nonempty := by simp, registry }
  else
    .error (.rootKind root.kind)

def root (m : Model) : Description := m.descriptions.head m.nonempty

def name (m : Model) : String := m.root.name

def size (m : Model) : Nat := m.descriptions.length

def get? (m : Model) (i : Nat) : Option Description := m.descriptions[i]?

def get (m : Model) (i : Nat) : Except ModelError Description :=
  match m.get? i with
  | some d => .ok d
  | none => .error (.outside i)

def set (m : Model) (i : Nat) (d : Description) : Model :=
  { m with
    descriptions := m.descriptions.set i d
    nonempty := by simpa using m.nonempty }

def append (m : Model) (ds : List Description) : Model :=
  { m with
    descriptions := m.descriptions ++ ds
    nonempty := by simp [m.nonempty] }

-- Changes the description at `i`.
def modify (m : Model) (i : Nat) (change : Description → Except ModelError Description) :
    Except ModelError Model := do
  let d ← change (← m.get i)
  return m.set i d

-- Adds `d` at the end, contained in `owner`. Its index is the size that `m` had.
def add (m : Model) (owner : Nat) (d : Description) : Except ModelError Model :=
  match m.get? owner with
  | none => .error (.unknown owner)
  | some o => do
    let o ← o.addMicro m.size
    return (m.set owner o).append [{ d with owner := some owner }]

def microOf (m : Model) (i : Nat) : List Nat := ((m.get? i).map (·.micro)).getD []

-- `i` and what it contains down to a depth: owners before their content, siblings in order.
def walkTo (m : Model) : Nat → Nat → List Nat
  | 0, _ => []
  | depth + 1, i => i :: (m.microOf i).flatMap (walkTo m depth)

-- The containment tree below `i`, with `i`. No path in it is longer than the model is large.
def walk (m : Model) (i : Nat) : List Nat := m.walkTo m.size i

-- Descriptions other than the root, with their indices.
def nonRoot (m : Model) : List (Description × Nat) := m.descriptions.zipIdx.drop 1

-- The species or experiment of a name, wherever it is declared. The descriptions of the model
-- itself go before grafted ones.
def find? (m : Model) (name : String) : Option Nat :=
  let named := m.nonRoot.filter fun (d, _) => d.name == name && !d.isModel
  ((named.find? (·.1.isOwn)).or named.head?).map Prod.snd

-- The experiments directly under the root.
def experiments (m : Model) : List Nat :=
  m.root.micro.filter fun i => (m.get? i).any (·.isExperiment)

def resolve (m : Model) : ParentLink → Option Description
  | .declared i => m.get? i
  | .builtIn name => m.registry.lookup name

-- The parent of the description at `i`, in the model or among the built-in ones.
def parentOf (m : Model) (i : Nat) : Option Description :=
  (m.get? i).bind fun d => d.parent.bind m.resolve

def parentName (m : Model) (i : Nat) : Option String := (m.parentOf i).map (·.name)

-- The name of the parent type of `d`, which for a built-in parent is the name in the link.
def parentTypeName (m : Model) (d : Description) : Except ModelError (Option String) :=
  match d.parent with
  | none => .ok none
  | some (.builtIn name) => .ok (some name)
  | some (.declared i) => do return some (← m.get i).name

-- `t` holds a type of the model itself under the name of the grafted `d`.
def shadows (m : Model) (t : TypeTable) (d : Description) : Bool :=
  !d.isOwn && (t.types.get? d.name).any fun type => (m.get? type.description).any (·.isOwn)

-- The types of all descriptions but the root. Descriptions of the model itself go before grafted
-- ones of their name; among those of one sort, the last of a name counts.
def declaredTypes (m : Model) : Except ModelError TypeTable :=
  m.nonRoot.foldlM (fun t (d, i) =>
    if m.shadows t d then .ok t
    else do
      let parent ← m.parentTypeName d
      return t.insert { name := d.name, description := i, parent }) {}

-- Builds the table of types anew, in which each graft goes by its own name and by that of its
-- model.
def buildTypes (m : Model) : Except ModelError Model := do
  let types ← m.grafts.entries.foldlM
    (fun t (graft, i) => do return t.addAlias graft (← m.get i).name) (← m.declaredTypes)
  return { m with types }

-- Puts the finalized model `other` under the root: its descriptions follow those of `m`, all
-- marked with the name of the graft. The grafted root comes at the index that is the size of `m`.
def graft (m : Model) (name : String) (other : Model) : Except ModelError Model := do
  unless other.root.isFinalized do throw (.notFinalized other.name)
  let root ← m.root.addMicro m.size
  let copies := other.descriptions.zipIdx.map fun (d, i) =>
    d.shift m.size (if i = rootIndex then some rootIndex else none) name
  return { (m.set rootIndex root).append copies with
    alternatePaths := m.alternatePaths.insertAll other.alternatePaths.toList
    grafts := m.grafts.insert name m.size }

end Model
end ModelAssembly
