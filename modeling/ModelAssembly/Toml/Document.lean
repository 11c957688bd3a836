import ModelAssembly.OrderedMap
import ModelAssembly.Toml.Scalar
import ModelAssembly.Toml.Text
/-!
TOML documents: tables that are filled statement by statement. A table cannot be defined twice,
and which statements may still add to it depends on how it came about.

Main operation: `parse` reads a document. The entries of every table come in the order of their
keys.
-/

namespace ModelAssembly.Toml

-- How a table came about.
inductive Origin where
  -- It has a header of its own.
  | header
  -- The header of a table inside it mentions it.
  | implied
  -- A key with points mentions it.
  | dotted
deriving DecidableEq

inductive Entry where
  -- Complete: nothing can be added to it.
  | value (d : Datum)
  | table (origin : Origin) (entries : List (String × Entry))
  -- Tables under headers in double brackets, the latest first.
  | tables (items : List (List (String × Entry)))

abbrev Entries := List (String × Entry)

namespace Entries

open OrderedMap (fetch put)

-- Changes the table that a header names by `path`; tables on the way are made where they are
-- missing. Of an array of tables, the latest is meant.
def within (change : Entries → Option Entries) : List String → Entries → Option Entries
  | [], es => change es
  | k :: path, es =>
    match fetch k es with
    | none => do return put k (.table .implied (← within change path [])) es
    | some (.table origin inner) => do
      return put k (.table origin (← within change path inner)) es
    | some (.tables (latest :: earlier)) => do
      return put k (.tables ((← within change path latest) :: earlier)) es
    | some (.tables []) | some (.value _) => none

-- A header defines the table `k`.
def openTable (k : String) (es : Entries) : Option Entries :=
  match fetch k es with
  | none => some (put k (.table .header []) es)
  | some (.table .implied inner) => some (put k (.table .header inner) es)
  | some _ => none

-- A header in double brackets adds a table to the array `k`.
def openItem (k : String) (es : Entries) : Option Entries :=
  match fetch k es with
  | none => some (put k (.tables [[]]) es)
  | some (.tables items) => some (put k (.tables ([] :: items)) es)
  | some _ => none

-- Sets a key with points. It may add to tables that no header defines; from then on they count as
-- made by such keys. It may pass through the latest table of an array, but not add to it.
def assign (d : Datum) : List String → Entries → Option Entries
  | [], _ => none
  | [k], es => if (fetch k es).isSome then none else some (put k (.value d) es)
  | k :: path, es =>
    match fetch k es with
    | none => do return put k (.table .dotted (← assign d path [])) es
    | some (.table .header _) => none
    | some (.table _ inner) => do return put k (.table .dotted (← assign d path inner)) es
    | some (.tables (latest :: earlier)) =>
      if path.length = 1 then none
      else do return put k (.tables ((← assign d path latest) :: earlier)) es
    | some (.tables []) | some (.value _) => none

-- Sorts by key, in the order of code points.
def sort (es : List (String × Datum)) : List (String × Datum) :=
  es.mergeSort fun a b => a.1 ≤ b.1

mutual

def entryDatum : Entry → Datum
  | .value d => d
  | .table _ entries => .table (sort (tableData entries))
  | .tables items => .list (itemData items).reverse

def tableData : List (String × Entry) → List (String × Datum)
  | [] => []
  | (k, e) :: r => (k, entryDatum e) :: tableData r

def itemData : List (List (String × Entry)) → List Datum
  | [] => []
  | es :: r => .table (sort (tableData es)) :: itemData r

end

def toDatum (es : Entries) : Datum := .table (sort (tableData es))

end Entries

-- How many brackets may be open at a time, and how many keys may be joined with points.
def nestingLimit : Nat := 80

mutual

-- Reads a value, in which `levels` brackets may be open at a time. Each reader here also takes a
-- limit on its steps; twice the number of characters left is enough, as no two steps in a row read
-- nothing.
def value : Nat → Nat → Reader Datum
  | 0, _, _ => none
  | limit + 1, levels, cs =>
    match string? cs with
    | some read => read.map fun (s, r) => (.text s, r)
    | none =>
      match levels, cs with
      | levels + 1, '[' :: r => do
        let (items, r) ← items limit levels r
        return (.list items, r)
      | levels + 1, '\x7b' :: r => do
        let (entries, r) ← fields limit levels [] r
        return (Entries.toDatum entries, r)
      | _, cs => scalar cs

-- Reads the items of an array, up to its end. A comma may follow the last.
def items : Nat → Nat → Reader (List Datum)
  | 0, _, _ => none
  | limit + 1, levels, cs =>
    match skipGap false cs with
    | ']' :: r => some ([], r)
    | cs => do
      let (d, r) ← value limit levels cs
      match skipGap false r with
      | ',' :: r =>
        let (ds, r) ← items limit levels r
        return (d :: ds, r)
      | ']' :: r => return ([d], r)
      | _ => none

-- Reads the fields of a table in braces, up to its end, and adds them to `es`. A comma may follow
-- the last.
def fields : Nat → Nat → Entries → Reader Entries
  | 0, _, _, _ => none
  | limit + 1, levels, es, cs =>
    match skipGap false cs with
    | '\x7d' :: r => some (es, r)
    | cs => do
      let (es, r) ← field limit levels es cs
      match skipGap false r with
      | ',' :: r => fields limit levels es r
      | '\x7d' :: r => return (es, r)
      | _ => none

-- Reads a key and its value, and adds them to `es`. They need not stand on one line.
def field : Nat → Nat → Entries → Reader Entries
  | 0, _, _, _ => none
  | limit + 1, levels, es, cs => do
    let (path, r) ← keyPath nestingLimit cs
    match skipGap false r with
    | '=' :: r =>
      let (d, r) ← value limit levels (skipGap false r)
      return (← Entries.assign d path es, r)
    | _ => none

end

-- Reads the rest of a header, of which `close` is the end, and opens the table that it names.
-- Gives back the path of that table too.
def header (openAt : String → Entries → Option Entries) (close : List Char) (es : Entries)
    (cs : List Char) : Option (List String × Entries × List Char) := do
  let (path, r) ← keyPath nestingLimit (skipBlanks cs)
  let r := skipBlanks r
  let es ← Entries.within (openAt (path.getLast?.getD "")) path.dropLast es
  if close.isPrefixOf r then some (path, es, r.drop close.length) else none

-- Reads the statements of a document; `path` is the table that the last header named.
def statements : Nat → List String → Entries → List Char → Option Entries
  | 0, _, _, _ => none
  | limit + 1, path, es, cs =>
    match skipGap false cs with
    | [] => some es
    | '[' :: '[' :: r => do
      let (path, es, r) ← header Entries.openItem [']', ']'] es r
      statements limit path es (← endLine r)
    | '[' :: r => do
      let (path, es, r) ← header Entries.openTable [']'] es r
      statements limit path es (← endLine r)
    | cs => do
      let (keys, r) ← keyPath nestingLimit cs
      match skipBlanks r with
      | '=' :: r =>
        let (d, r) ← value limit nestingLimit (skipBlanks r)
        let es ← Entries.within (Entries.assign d keys) path es
        statements limit path es (← endLine r)
      | _ => none

-- Reads a document. A mark of byte order in front of it is skipped.
def parse (s : String) : Option Datum := do
  let cs := match s.toList with
    | '\ufeff' :: r => r
    | cs => cs
  return Entries.toDatum (← statements (2 * cs.length + 4) [] [] cs)

end ModelAssembly.Toml
