import ModelAssembly.Facets
import ModelAssembly.Keyword
/-!
Elements of a parsed syntax tree. A front end hands whole trees over; each tree is an element with
its children.

Main operation: `inheritFile` gives every element without a file the file of its nearest ancestor.
-/

namespace ModelAssembly

-- What a member of a description is.
inductive Role where
  | var
  | action
  | behavior
  | aspect
  | parameter
  | output
deriving DecidableEq, Ord

namespace Role

def text : Role → String
  | var => "variable"
  | action => "action"
  | behavior => "behavior"
  | aspect => "aspect"
  | parameter => "parameter"
  | output => "output"

end Role

inductive ElementKind where
  | model
  | global
  | species
  | grid
  | experiment
  | member (role : Role)
deriving DecidableEq

namespace ElementKind

def all : List ElementKind :=
  [model, global, species, grid, experiment, member .var, member .action, member .behavior,
    member .aspect, member .parameter, member .output]

-- The name of the kind in stored trees.
def text : ElementKind → String
  | model => "model"
  | global => "global"
  | species => "species"
  | grid => "grid"
  | experiment => "experiment"
  | member role => role.text

def ofText? (s : String) : Option ElementKind := all.find? (·.text == s)

-- The keyword that opens a declaration of this kind in the modeling language.
def keyword : ElementKind → String
  | member .var => "var"
  | member .behavior => "reflex"
  | kind => kind.text

-- Plain species and grids both declare a species.
def isSpecies : ElementKind → Bool
  | species | grid => true
  | _ => false

def isExperiment (kind : ElementKind) : Bool := kind == experiment

def role? : ElementKind → Option Role
  | member role => some role
  | _ => none

end ElementKind

-- Where an element was read from.
structure Provenance where
  file : Option String := none
  line : Option UInt32 := none
deriving DecidableEq

namespace Provenance

def text (p : Provenance) : String :=
  let file := p.file.getD "<unknown>"
  match p.line with
  | some line => s!"{file}:{line.toNat}"
  | none => file

end Provenance

structure Element where
  kind : ElementKind
  name : Option String := none
  facets : Facets := ∅
  children : List Element := []
  provenance : Provenance := {}
  pragmas : OrderedMap String (List String) := ∅

namespace Element

mutual

-- Equality up to the order of facets and pragmas.
def same : Element → Element → Bool
  | ⟨kind, name, facets, children, provenance, pragmas⟩, f =>
    kind == f.kind && name == f.name && facets == f.facets && sameAll children f.children &&
      provenance == f.provenance && pragmas == f.pragmas

def sameAll : List Element → List Element → Bool
  | [], [] => true
  | e :: r, f :: s => same e f && sameAll r s
  | _, _ => false

end

instance : BEq Element := ⟨same⟩

-- An anonymous element goes by its keyword.
def nameOrKeyword (e : Element) : String := e.name.getD e.kind.keyword

-- The name of the model that a syntax tree declares.
def modelName (tree : Element) : String := Keyword.modelName tree.nameOrKeyword

-- Species declared directly under `e`: the plain ones, then the grids.
def speciesDeclarations (e : Element) : List Element :=
  e.children.filter (·.kind = .species) ++ e.children.filter (·.kind = .grid)

def experiments (e : Element) : List Element := e.children.filter (·.kind.isExperiment)

def globals (e : Element) : List Element := e.children.filter (·.kind = .global)

-- Children that become members.
def members (e : Element) : List Element := e.children.filter (·.kind.role?.isSome)

-- Species and experiments declared directly under `e`, in the order in which they are placed.
def declarations (e : Element) : List Element := e.speciesDeclarations ++ e.experiments

def setFacet (e : Element) (name expression : String) : Element :=
  { e with facets := e.facets.insert name expression }

def setPragma (e : Element) (name : String) (arguments : List String) : Element :=
  { e with pragmas := e.pragmas.insert name arguments }

def addChildren (e : Element) (children : List Element) : Element :=
  { e with children := e.children ++ children }

def setLine (e : Element) (line : UInt32) : Element :=
  { e with provenance := { e.provenance with line := some line } }

mutual

-- Gives `file` to `e` if it has no file of its own, and the file that `e` then has to its
-- children, all the way down.
def withFileOf (file : Option String) : Element → Element
  | ⟨kind, name, facets, children, provenance, pragmas⟩ =>
    let own := provenance.file.or file
    ⟨kind, name, facets, withFileOfAll own children, { provenance with file := own }, pragmas⟩

def withFileOfAll (file : Option String) : List Element → List Element
  | [] => []
  | e :: r => withFileOf file e :: withFileOfAll file r

end

def inheritFile (e : Element) : Element := e.withFileOf none

-- Sets the file of `e`, and of every descendant that has none.
def setFile (e : Element) (file : String) : Element :=
  { e with provenance := { e.provenance with file := some file } }.inheritFile

theorem sizeOf_lt_of_mem_children {e x : Element} (h : x ∈ e.children) : sizeOf x < sizeOf e := by
  have ⟨kind, name, facets, children, provenance, pragmas⟩ := e
  have hx : sizeOf x < sizeOf children := List.sizeOf_lt_of_mem h
  simp only [mk.sizeOf_spec]
  omega

-- What holds of an element as soon as it holds of its children holds of all.
theorem children_induction {P : Element → Prop} (h : ∀ e, (∀ x ∈ e.children, P x) → P e)
    (e : Element) : P e :=
  h e fun x hx =>
    have := sizeOf_lt_of_mem_children hx
    children_induction h x
termination_by sizeOf e

theorem withFileOfAll_eq_map (file : Option String) (es : List Element) :
    withFileOfAll file es = es.map (withFileOf file) := by
  induction es with
  | nil => rfl
  | cons e r ih => simp [withFileOfAll, ih]

theorem nameOrKeyword_withFileOf (file : Option String) (e : Element) :
    (e.withFileOf file).nameOrKeyword = e.nameOrKeyword := by
  cases e; rfl

end Element
end ModelAssembly
