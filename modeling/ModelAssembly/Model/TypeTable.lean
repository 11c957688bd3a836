import ModelAssembly.OrderedMap
/-!
The types that a model offers: one per name of a species, an experiment or a grafted model, and
further names for some of them.
-/

namespace ModelAssembly

structure SpeciesType where
  name : String
  -- The index of the description.
  description : Nat
  parent : Option String
deriving DecidableEq

structure TypeTable where
  types : OrderedMap String SpeciesType := ∅
  aliases : OrderedMap String String := ∅
deriving BEq

namespace TypeTable

def insert (t : TypeTable) (type : SpeciesType) : TypeTable :=
  { t with types := t.types.insert type.name type }

-- Makes `name` another name for the type `target`.
def addAlias (t : TypeTable) (name target : String) : TypeTable :=
  { t with aliases := t.aliases.insert name target }

-- A further name goes before a type of that name.
def get? (t : TypeTable) (name : String) : Option SpeciesType :=
  t.types.get? ((t.aliases.get? name).getD name)

def contains (t : TypeTable) (name : String) : Bool := (t.get? name).isSome

def toList (t : TypeTable) : List SpeciesType := t.types.values

end TypeTable
end ModelAssembly
