/-!
Maps and sets that remember the order in which their keys first arrived. Setting a key that is
already there keeps its place and replaces its value; removing a key keeps the order of the rest.
Two of them are equal (`==`) when they hold the same entries, in whatever order.

Main statements: `keys_insert`, `get?_insert`, `keys_erase` and `get?_erase` say what the
operations do to the list of keys and to look-ups.
-/

namespace ModelAssembly

-- Entries with distinct keys, in the order in which the keys first arrived.
structure OrderedMap (κ α : Type) where
  entries : List (κ × α)
  nodup : (entries.map Prod.fst).Nodup

namespace OrderedMap

variable {κ α : Type}

instance : EmptyCollection (OrderedMap κ α) := ⟨⟨[], .nil⟩⟩

instance : Inhabited (OrderedMap κ α) := ⟨∅⟩

@[ext]
theorem ext {m n : OrderedMap κ α} (h : m.entries = n.entries) : m = n := by
  cases m; cases n; cases h; rfl

def keys (m : OrderedMap κ α) : List κ := m.entries.map Prod.fst

def values (m : OrderedMap κ α) : List α := m.entries.map Prod.snd

def size (m : OrderedMap κ α) : Nat := m.entries.length

def isEmpty (m : OrderedMap κ α) : Bool := m.entries.isEmpty

theorem nodup_keys (m : OrderedMap κ α) : m.keys.Nodup := m.nodup

@[simp] theorem entries_empty : (∅ : OrderedMap κ α).entries = [] := rfl

@[simp] theorem keys_empty : (∅ : OrderedMap κ α).keys = [] := rfl

variable [DecidableEq κ]

-- The value of the first entry for `k`.
def fetch (k : κ) : List (κ × α) → Option α
  | [] => none
  | e :: r => if e.1 = k then some e.2 else fetch k r

-- Replaces the value of the first entry for `k`, or appends an entry for it.
def put (k : κ) (v : α) : List (κ × α) → List (κ × α)
  | [] => [(k, v)]
  | e :: r => if e.1 = k then (k, v) :: r else e :: put k v r

theorem map_fst_put (k : κ) (v : α) (es : List (κ × α)) :
    (put k v es).map Prod.fst =
      if k ∈ es.map Prod.fst then es.map Prod.fst else es.map Prod.fst ++ [k] := by
  induction es with
  | nil => rfl
  | cons e r ih =>
    by_cases h : e.1 = k
    · simp [put, h]
    · have h' : ¬ k = e.1 := fun he => h he.symm
      by_cases hr : k ∈ r.map Prod.fst
      · simp only [put, h, if_false, List.map_cons, ih, List.mem_cons, h', false_or, hr, if_true]
      · simp only [put, h, if_false, List.map_cons, ih, List.mem_cons, h', false_or, hr,
          List.cons_append]

theorem fetch_put (k j : κ) (v : α) (es : List (κ × α)) :
    fetch j (put k v es) = if k = j then some v else fetch j es := by
  induction es with
  | nil => rfl
  | cons e r ih =>
    by_cases h : e.1 = k <;> by_cases hj : e.1 = j <;> simp_all [put, fetch]
    intro hk
    exact absurd hk.symm h

def insert (m : OrderedMap κ α) (k : κ) (v : α) : OrderedMap κ α where
  entries := put k v m.entries
  nodup := by
    rw [map_fst_put]
    by_cases h : k ∈ m.entries.map Prod.fst
    · simpa only [h, if_true] using m.nodup
    · simp only [h, if_false]
      refine List.nodup_append.2 ⟨m.nodup, by simp, ?_⟩
      intro a ha b hb he
      simp only [List.mem_singleton] at hb
      exact h (hb ▸ he ▸ ha)

def erase (m : OrderedMap κ α) (k : κ) : OrderedMap κ α where
  entries := m.entries.filter (·.1 ≠ k)
  nodup := m.nodup.sublist (List.filter_sublist.map _)

def get? (m : OrderedMap κ α) (k : κ) : Option α := fetch k m.entries

def contains (m : OrderedMap κ α) (k : κ) : Bool := (m.get? k).isSome

-- The map of a list of pairs: a repeated key keeps its first place and takes its last value.
def ofList (es : List (κ × α)) : OrderedMap κ α := es.foldl (fun m e => m.insert e.1 e.2) ∅

-- Every entry of `n` is set in `m`, in order: `n` wins where both have a key.
def merge (m n : OrderedMap κ α) : OrderedMap κ α :=
  n.entries.foldl (fun m e => m.insert e.1 e.2) m

instance [BEq α] : BEq (OrderedMap κ α) where
  beq m n := m.size == n.size && m.entries.all fun e =>
    match n.get? e.1 with
    | some v => e.2 == v
    | none => false

theorem keys_insert (m : OrderedMap κ α) (k : κ) (v : α) :
    (m.insert k v).keys = if k ∈ m.keys then m.keys else m.keys ++ [k] :=
  map_fst_put k v m.entries

theorem get?_insert (m : OrderedMap κ α) (k j : κ) (v : α) :
    (m.insert k v).get? j = if k = j then some v else m.get? j :=
  fetch_put k j v m.entries

@[simp] theorem get?_empty (k : κ) : (∅ : OrderedMap κ α).get? k = none := rfl

theorem keys_erase (m : OrderedMap κ α) (k : κ) : (m.erase k).keys = m.keys.filter (· ≠ k) := by
  simp only [keys, erase, List.filter_map]; rfl

theorem get?_erase (m : OrderedMap κ α) (k j : κ) :
    (m.erase k).get? j = if k = j then none else m.get? j := by
  simp only [get?, erase]
  induction m.entries with
  | nil => simp [fetch]
  | cons e r ih =>
    by_cases h : e.1 = k <;> by_cases hj : e.1 = j <;> simp_all [fetch]
    intro hk
    exact absurd hk.symm h

theorem mem_keys_iff (m : OrderedMap κ α) (k : κ) : k ∈ m.keys ↔ m.contains k = true := by
  simp only [keys, contains, get?]
  induction m.entries with
  | nil => simp [fetch]
  | cons e r ih =>
    by_cases h : e.1 = k
    · simp [fetch, h]
    · have h' : ¬ k = e.1 := fun he => h he.symm
      simp only [List.map_cons, List.mem_cons, h', false_or, fetch, h, if_false]
      exact ih

end OrderedMap

-- Distinct elements in the order in which they first arrived.
structure OrderedSet (α : Type) where
  toList : List α
  nodup : toList.Nodup

namespace OrderedSet

variable {α : Type}

instance : EmptyCollection (OrderedSet α) := ⟨⟨[], .nil⟩⟩

instance : Inhabited (OrderedSet α) := ⟨∅⟩

variable [DecidableEq α]

def contains (s : OrderedSet α) (a : α) : Bool := s.toList.contains a

-- Appends `a` unless it is there already.
def insert (s : OrderedSet α) (a : α) : OrderedSet α :=
  if h : a ∈ s.toList then s else
    { toList := s.toList ++ [a]
      nodup := by
        refine List.nodup_append.2 ⟨s.nodup, by simp, ?_⟩
        intro b hb c hc he
        simp only [List.mem_singleton] at hc
        exact h (hc ▸ he ▸ hb) }

def insertAll (s : OrderedSet α) (as : List α) : OrderedSet α := as.foldl insert s

def ofList (as : List α) : OrderedSet α := (∅ : OrderedSet α).insertAll as

instance : BEq (OrderedSet α) where
  beq s t := s.toList.length == t.toList.length && s.toList.all t.contains

end OrderedSet
end ModelAssembly
