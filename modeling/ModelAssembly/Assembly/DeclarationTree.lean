import ModelAssembly.Description
import ModelAssembly.Diagnostic.Basic
/-!
The species and experiments that stand under a declaration, down to any depth. Where several
directly under one declaration share a name, the last of them counts, in the place of the first.
-/

namespace ModelAssembly

-- A declaration and the surviving declarations nested in it.
inductive DeclarationTree where
  | node (element : Element) (nested : List DeclarationTree)

namespace DeclarationTree

def element : DeclarationTree → Element
  | node element _ => element

def nested : DeclarationTree → List DeclarationTree
  | node _ nested => nested

-- Of the trees `ts` of all children: plain species, then grids, then experiments, one for each
-- name.
def survivors (ts : List DeclarationTree) : List DeclarationTree :=
  let ofKind (kind : ElementKind) := ts.filter (·.element.kind = kind)
  (OrderedMap.ofList <| (ofKind .species ++ ofKind .grid ++ ofKind .experiment).map
    fun t => (t.element.nameOrKeyword, t)).values

mutual

def ofElement : Element → DeclarationTree
  | ⟨kind, name, facets, children, provenance, pragmas⟩ =>
    node ⟨kind, name, facets, children, provenance, pragmas⟩ (survivors (ofElements children))

def ofElements : List Element → List DeclarationTree
  | [] => []
  | e :: r => ofElement e :: ofElements r

end

-- `current` replaces `previous`; both are declared directly under `owner`.
def duplicate (owner previous current : Element) : Diagnostic where
  severity := .error
  code := some .duplicateMicro
  message := s!"`{current.nameOrKeyword}` is declared twice in `{owner.nameOrKeyword}`"
  labels := [.primary current.provenance "duplicate declaration",
    .secondary previous.provenance "first declared here"]

-- A diagnostic for each declaration directly under `owner` that replaces one of its name.
def duplicates (owner : Element) : List Diagnostic :=
  (owner.declarations.foldl (fun (seen, ds) e =>
    (seen.insert e.nameOrKeyword e,
      ds ++ ((seen.get? e.nameOrKeyword).map fun previous => duplicate owner previous e).toList))
    ((∅ : OrderedMap String Element), ([] : List Diagnostic))).2

end DeclarationTree
end ModelAssembly
