import ModelAssembly.Assembly.DeclarationTree
import ModelAssembly.Assembly.Declarations
import ModelAssembly.Model.Basic
/-!
Placement: every declaration gets a description in the model, contained in that of the declaration
it is nested in. The descriptions have no parents and no members yet.
-/

namespace ModelAssembly

structure Placement where
  model : Model
  -- The index of each name; of several descriptions of one name, the last that was placed.
  indices : OrderedMap String Nat := ∅
  -- The declaration behind each description, in the order of their indices.
  nodes : List (Nat × Element) := []

namespace Placement

-- Adds the description of `e` to that at `owner`.
def addShell (p : Placement) (owner : Nat) (origin : String) (e : Element) (shell : Description) :
    Except ModelError Placement := do
  let shell ← shell.setOrigin origin
  return {
    model := ← p.model.add owner shell
    indices := p.indices.insert shell.name p.model.size
    nodes := p.nodes ++ [(p.model.size, e)] }

mutual

-- Places a declaration of the model `origin`, and then what is nested in it.
def place (owner : Nat) (origin : String) (p : Placement) : DeclarationTree → Outcome Placement
  | .node e nested =>
    match Description.shell? e with
    | none => pure p
    | some shell => do
      let index := p.model.size
      let p ← .ofModel (p.addShell owner origin e shell)
      .report (DeclarationTree.duplicates e)
      placeAll index origin p nested

def placeAll (owner : Nat) (origin : String) (p : Placement) :
    List DeclarationTree → Outcome Placement
  | [] => pure p
  | t :: r => do placeAll owner origin (← place owner origin p t) r

end

-- Places all declarations under the root of `m`.
def ofDeclarations (m : Model) (ds : Declarations) : Outcome Placement := do
  let p ← ds.all.foldlM
    (fun p d => place Model.rootIndex d.origin p (.ofElement d.element)) { model := m }
  return { p with model := { p.model with microSpeciesNames := .ofList p.indices.keys } }

end Placement
end ModelAssembly
