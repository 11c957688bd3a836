import ModelAssembly.Element
/-!
Members: the variables, actions, behaviors and other content of a description. The body of a
member stays what was parsed.
-/

namespace ModelAssembly

-- Members shadow each other when both their role and their name agree.
structure MemberKey where
  role : Role
  name : String
deriving DecidableEq

structure Member where
  role : Role
  name : String
  facets : Facets := ∅
  body : List Element := []
  provenance : Provenance := {}
  -- The description that declares the member, if this is an inherited copy.
  inheritedFrom : Option String := none
deriving BEq

namespace Member

def ofElement? (e : Element) : Option Member :=
  e.kind.role?.map fun role =>
    { role
      name := e.nameOrKeyword
      facets := e.facets
      body := e.children
      provenance := e.provenance }

-- The members that are declared directly under `e`.
def declaredIn (e : Element) : List Member := e.members.filterMap ofElement?

def setFacet (m : Member) (name expression : String) : Member :=
  { m with facets := m.facets.insert name expression }

def key (m : Member) : MemberKey := ⟨m.role, m.name⟩

-- The model that a global member was declared in.
def origin (m : Member) : Option String := m.facets.get? Keyword.origin

-- Only actions can be abstract.
def isAbstract (m : Member) : Bool := m.role == .action && m.facets.isTrue Keyword.virtual

-- The copy of `m` that a child of `parent` gets: it keeps the declaring ancestor that `m` has.
def inheritedVia (m : Member) (parent : String) : Member :=
  { m with inheritedFrom := some (m.inheritedFrom.getD parent) }

@[simp]
theorem key_inheritedVia (m : Member) (parent : String) : (m.inheritedVia parent).key = m.key :=
  rfl

end Member
end ModelAssembly
