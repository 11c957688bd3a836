import ModelAssembly.Assembly.Outcome
import ModelAssembly.Model.Basic
/-!
The inheritance hierarchy of the descriptions of one kind, and an order in which parents come
before their children. An edge that would close a cycle is never added; the child then extends the
generic base.
-/

namespace ModelAssembly

-- Vertices are descriptions, by index; an edge leads from a parent to a child. Both are in the
-- order in which they were added.
structure Hierarchy where
  vertices : List Nat := []
  edges : List (Nat × Nat) := []
deriving DecidableEq

namespace Hierarchy

def addVertex (h : Hierarchy) (i : Nat) : Hierarchy :=
  if i ∈ h.vertices then h else { h with vertices := h.vertices ++ [i] }

-- The children of `i`, oldest edge first.
def children (h : Hierarchy) (i : Nat) : List Nat := (h.edges.filter (·.1 == i)).map Prod.snd

-- A path of at most `length` edges leads from `i` to `target`.
def reachesIn (h : Hierarchy) (target : Nat) : Nat → Nat → Bool
  | 0, i => i == target
  | length + 1, i => i == target || (h.children i).any (h.reachesIn target length)

-- No path without repetition has more edges than there are vertices.
def reaches (h : Hierarchy) (i target : Nat) : Bool := h.reachesIn target h.vertices.length i

-- Adds the edge from `parent` to `child`, unless it would close a cycle. Both become vertices
-- either way.
def addEdge (h : Hierarchy) (parent child : Nat) : Hierarchy × Bool :=
  let h := (h.addVertex parent).addVertex child
  if h.reaches child parent then (h, false)
  else ({ h with edges := h.edges ++ [(parent, child)] }, true)

-- Puts `i` in front of `done`, behind what can be reached from `i` and is not yet in `done`.
def visit (h : Hierarchy) : Nat → List Nat → Nat → List Nat
  | 0, done, _ => done
  | depth + 1, done, i =>
    if i ∈ done then done else i :: (h.children i).foldl (h.visit depth) done

-- All vertices, with those on which the search started later in front.
def traversal (h : Hierarchy) : List Nat := h.vertices.foldl (h.visit h.vertices.length) []

-- Parents come before their children in `order`.
def Respects (h : Hierarchy) (order : List Nat) : Prop :=
  ∀ e ∈ h.edges, order.idxOf e.1 < order.idxOf e.2

instance (h : Hierarchy) (order : List Nat) : Decidable (h.Respects order) :=
  inferInstanceAs (Decidable (∀ e ∈ h.edges, _))

-- All vertices, parents before children. There is none if the hierarchy leads back to itself.
def order? (h : Hierarchy) : Option (List Nat) :=
  if h.Respects h.traversal then some h.traversal else none

end Hierarchy

namespace Description

-- The parent of `d` leads back to `d`.
def inconsistentHierarchy (d : Description) : Diagnostic where
  severity := .error
  code := some .inconsistentHierarchy
  message := s!"the hierarchy of `{d.name}` is inconsistent"
  labels := [.primary d.provenance "its parents lead back to it"]
  help := some "remove the `parent` facet that closes the cycle"
  onExperiment := d.isExperiment

end Description

namespace DescriptionKind

-- The built-in description that one without a parent of its own extends.
def base : DescriptionKind → String
  | experiment => Keyword.experiment
  | model | species => Keyword.agent

end DescriptionKind

namespace Model

-- Takes the description at `i` into the hierarchy if it is one of the model's own of the kind. A
-- parent of another kind gives no edge.
def extendHierarchy (kind : DescriptionKind) (state : Model × Hierarchy) (i : Nat) :
    Outcome (Model × Hierarchy) := do
  let (m, h) := state
  let d ← .ofModel (m.get i)
  if d.kind ≠ kind || d.isBuiltIn || !d.isOwn then
    return (m, h)
  let h := h.addVertex i
  match d.parent with
  | some (.declared parent) =>
    let p ← .ofModel (m.get parent)
    if p.kind ≠ kind then
      return (m, h)
    match h.addEdge parent i with
    | (h, true) => return (m, h)
    | (h, false) =>
      .report [d.inconsistentHierarchy]
      return (← .ofModel (m.modify i (·.setParent (.builtIn kind.base))), h)
  | _ => return (m, h)

-- Breaks the cycles among the descriptions of a kind, and lists these, parents before children.
def linearize (m : Model) (kind : DescriptionKind) : Outcome (Model × List Nat) := do
  let (m, h) ← (m.walk rootIndex).foldlM (extendHierarchy kind) (m, {})
  match h.order? with
  | some order => return (m, order)
  | none => .fail (.refused .cyclic)

end Model
end ModelAssembly
