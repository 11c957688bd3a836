import ModelAssembly.Bundle
import ModelAssembly.Datum
/-!
How elements, bundles and settings are stored as data. A record is a table of its fields or the
list of their values in order; fields at the end of the list, and in the table any field that has
a default, may be missing. Unknown fields of a table are passed over. What a list may hold beyond
its record, and what stands for nothing, is up to the conventions of the format.
-/

namespace ModelAssembly

namespace Datum

-- The fields of a record. Fields that are not in `names` must be readable all the same.
def record? (c : Conventions) (names : List String) : Datum → Option (List (String × Datum))
  | table entries =>
    if entries.all fun e => names.contains e.1 || e.2.isReadable then some entries else none
  | list items =>
    if c.allowsExtraItems || items.length ≤ names.length then some (names.zip items) else none
  | _ => none

-- A field that may be missing.
def field {α : Type} (entries : List (String × Datum)) (name : String) (default : α)
    (read : Datum → Option α) : Option α :=
  match entries.lookup name with
  | some d => read d
  | none => some default

def bool? : Datum → Option Bool
  | bool b => some b
  | _ => none

def text? : Datum → Option String
  | text s => some s
  | _ => none

def line? : Datum → Option UInt32
  | int n => if 0 ≤ n ∧ n < UInt32.size then some (UInt32.ofNat n.toNat) else none
  | _ => none

-- The name of a case that carries nothing: a text, or the only key of a table, which then holds
-- nothing.
def caseName? (c : Conventions) : Datum → Option String
  | text s => some s
  | table [(name, d)] => if c.isNothing d then some name else none
  | _ => none

-- A value that may be null.
def nullable {α : Type} (read : Datum → Option α) : Datum → Option (Option α)
  | null => some none
  | d => (read d).map some

def texts? : Datum → Option (List String)
  | list items => items.mapM text?
  | _ => none

-- A table all of whose values are of one sort.
def map? {α : Type} (read : Datum → Option α) : Datum → Option (OrderedMap String α)
  | table entries => (entries.mapM fun e => (read e.2).map fun a => (e.1, a)).map .ofList
  | _ => none

def ofNullable {α : Type} (write : α → Datum) : Option α → Datum
  | some a => write a
  | none => null

def ofMap {α : Type} (write : α → Datum) (m : OrderedMap String α) : Datum :=
  table (m.entries.map fun (k, a) => (k, write a))

def ofTexts (ss : List String) : Datum := list (ss.map text)

end Datum

namespace Provenance

def ofDatum? (c : Datum.Conventions) (d : Datum) : Option Provenance := do
  let fields ← d.record? c ["file", "line"]
  return {
    file := ← Datum.field fields "file" none (Datum.nullable Datum.text?)
    line := ← Datum.field fields "line" none (Datum.nullable Datum.line?) }

def toDatum (p : Provenance) : Datum :=
  .table [("file", .ofNullable .text p.file), ("line", .ofNullable (fun n => .int n.toNat) p.line)]

end Provenance

namespace ElementKind

def ofDatum? (c : Datum.Conventions) (d : Datum) : Option ElementKind :=
  (d.caseName? c).bind ofText?

end ElementKind

namespace Facets

def ofDatum? : Datum → Option Facets := Datum.map? Datum.text?

def toDatum : Facets → Datum := Datum.ofMap .text

end Facets

namespace Element

def fieldNames : List String := ["kind", "name", "facets", "children", "provenance", "pragmas"]

-- Reads everything but the children.
def ofFields? (c : Datum.Conventions) (fields : List (String × Datum)) : Option Element := do
  return {
    kind := ← (fields.lookup "kind").bind (ElementKind.ofDatum? c)
    name := ← Datum.field fields "name" none (Datum.nullable Datum.text?)
    facets := ← Datum.field fields "facets" ∅ Facets.ofDatum?
    provenance := ← Datum.field fields "provenance" {} (Provenance.ofDatum? c)
    pragmas := ← Datum.field fields "pragmas" ∅ (Datum.map? Datum.texts?) }

mutual

def ofDatum? (c : Datum.Conventions) : Datum → Option Element
  | .table entries => do
    let e ← ofFields? c (← (Datum.table entries).record? c fieldNames)
    return { e with children := ← childrenIn? c entries }
  | .list items => do
    let e ← ofFields? c (← (Datum.list items).record? c fieldNames)
    return { e with children := ← childrenAt? c 3 items }
  | _ => none

-- Reads the children from a table of fields.
def childrenIn? (c : Datum.Conventions) : List (String × Datum) → Option (List Element)
  | [] => some []
  | (name, d) :: r => if name = "children" then listOfDatum? c d else childrenIn? c r

-- Reads the children from a list of fields, in which they have a place.
def childrenAt? (c : Datum.Conventions) : Nat → List Datum → Option (List Element)
  | _, [] => some []
  | 0, d :: _ => listOfDatum? c d
  | place + 1, _ :: r => childrenAt? c place r

def listOfDatum? (c : Datum.Conventions) : Datum → Option (List Element)
  | .list items => ofItems? c items
  | _ => none

def ofItems? (c : Datum.Conventions) : List Datum → Option (List Element)
  | [] => some []
  | d :: r => do return (← ofDatum? c d) :: (← ofItems? c r)

end

mutual

def toDatum : Element → Datum
  | ⟨kind, name, facets, children, provenance, pragmas⟩ =>
    .table [("kind", .text kind.text), ("name", .ofNullable .text name), ("facets", facets.toDatum),
      ("children", .list (toItems children)), ("provenance", provenance.toDatum),
      ("pragmas", .ofMap Datum.ofTexts pragmas)]

def toItems : List Element → List Datum
  | [] => []
  | e :: r => toDatum e :: toItems r

end

end Element

namespace Bundle

def fieldNames : List String := ["primary", "project_path", "model_path", "models", "grafts"]

-- Reads everything but the grafts.
def ofFields? (c : Datum.Conventions) (fields : List (String × Datum)) : Option Bundle := do
  return {
    primary := ← (fields.lookup "primary").bind Datum.text?
    projectPath := ← Datum.field fields "project_path" "" Datum.text?
    modelPath := ← Datum.field fields "model_path" "" Datum.text?
    models := ← Datum.field fields "models" [] (Element.listOfDatum? c) }

mutual

def ofDatum? (c : Datum.Conventions) : Datum → Option Bundle
  | .table entries => do
    let b ← ofFields? c (← (Datum.table entries).record? c fieldNames)
    return { b with grafts := ← graftsIn? c entries }
  | .list items => do
    let b ← ofFields? c (← (Datum.list items).record? c fieldNames)
    return { b with grafts := ← graftsAt? c 4 items }
  | _ => none

-- Reads the grafts from a table of fields.
def graftsIn? (c : Datum.Conventions) : List (String × Datum) → Option (List (String × Bundle))
  | [] => some []
  | (name, d) :: r => if name = "grafts" then graftsOfDatum? c d else graftsIn? c r

-- Reads the grafts from a list of fields, in which they have a place.
def graftsAt? (c : Datum.Conventions) : Nat → List Datum → Option (List (String × Bundle))
  | _, [] => some []
  | 0, d :: _ => graftsOfDatum? c d
  | place + 1, _ :: r => graftsAt? c place r

def graftsOfDatum? (c : Datum.Conventions) : Datum → Option (List (String × Bundle))
  | .table entries => ofEntries? c entries
  | _ => none

def ofEntries? (c : Datum.Conventions) : List (String × Datum) → Option (List (String × Bundle))
  | [] => some []
  | (name, d) :: r => do return (name, ← ofDatum? c d) :: (← ofEntries? c r)

end

mutual

def toDatum : Bundle → Datum
  | ⟨primary, projectPath, modelPath, models, grafts⟩ =>
    .table [("primary", .text primary), ("project_path", .text projectPath),
      ("model_path", .text modelPath), ("models", .list (Element.toItems models)),
      ("grafts", .table (toEntries grafts))]

def toEntries : List (String × Bundle) → List (String × Datum)
  | [] => []
  | (name, b) :: r => (name, toDatum b) :: toEntries r

end

end Bundle

namespace AssemblySettings

-- Settings are stored in two sections, `pragmas` and `assembly`.
def ofDatum? (c : Datum.Conventions) (d : Datum) : Option AssemblySettings := do
  let sections ← d.record? c ["pragmas", "assembly"]
  let pragmas ← Datum.field sections "pragmas" []
    (Datum.record? c ["enforce_required_plugins", "available_plugins"])
  let assembly ← Datum.field sections "assembly" [] (Datum.record? c ["legacy_scheduling"])
  return {
    enforceRequiredPlugins := ← Datum.field pragmas "enforce_required_plugins" false Datum.bool?
    availablePlugins := ← (Datum.field pragmas "available_plugins" [] Datum.texts?).map .ofList
    legacyScheduling := ← Datum.field assembly "legacy_scheduling" true Datum.bool? }

end AssemblySettings
end ModelAssembly
