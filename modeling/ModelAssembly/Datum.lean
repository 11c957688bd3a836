/-!
Structured data, as files hold it: the common ground of the formats in which bundles and settings
are stored.
-/

namespace ModelAssembly

inductive Datum where
  | null
  | bool (b : Bool)
  | int (n : Int)
  | text (s : String)
  -- A number with a fraction: nothing that is stored here has such a value.
  | real
  -- A number that is too large to be kept. It does no harm where nobody reads it.
  | outOfRange
  | list (items : List Datum)
  -- Entries with distinct keys.
  | table (entries : List (String × Datum))
deriving Inhabited

namespace Datum

-- A date or a time, which stands as a table of one entry. Its key is none that a record knows.
def moment (written : String) : Datum := table [("$moment", text written)]

mutual

-- Every number in it can be kept.
def isReadable : Datum → Bool
  | outOfRange => false
  | list items => areReadable items
  | table entries => fieldsReadable entries
  | _ => true

def areReadable : List Datum → Bool
  | [] => true
  | d :: r => isReadable d && areReadable r

def fieldsReadable : List (String × Datum) → Bool
  | [] => true
  | (_, d) :: r => isReadable d && fieldsReadable r

end

-- Where the formats differ in what they take a datum for.
structure Conventions where
  -- A list may go on after the last field of the record that it stands for.
  allowsExtraItems : Bool
  -- The datum says that there is nothing.
  isNothing : Datum → Bool

namespace Conventions

def json : Conventions where
  allowsExtraItems := false
  isNothing
    | null => true
    | _ => false

def toml : Conventions where
  allowsExtraItems := true
  isNothing
    | list [] | table [] => true
    | _ => false

end Conventions
end Datum
end ModelAssembly
