import ModelAssembly.Proofs.Collisions
import Mathlib.Algebra.GroupWithZero.Nat
import Mathlib.Data.Finset.Card
/-!
Replacements, told without tables: where several elements of a list share a key, each but the first
replaces the last one before it. What is reported about declarations is one report for each
replacement, at the top of trees as well as below the declarations that were placed.

Main statements: `length_replacements` counts replacements; `overwritten_map` says that tables
overwrite what is replaced in this sense; `one_report_per_replacement` is about the reports.
-/

open ModelAssembly.OrderedMap

namespace ModelAssembly

section

variable {α β γ κ : Type} [DecidableEq κ] {key : α → κ} {k : κ} {xs : List α} {x : α}

-- The last one of `xs` that has the key `k`.
def lastOf (key : α → κ) (k : κ) (xs : List α) : Option α := xs.reverse.find? (key · = k)

-- Each one of `xs` that has the key of one before it, behind the last such.
def replacements (key : α → κ) (xs : List α) : List (α × α) :=
  xs.zipIdx.filterMap fun (x, i) => (lastOf key (key x) (xs.take i)).map (·, x)

theorem lastOf_map (f : β → α) (xs : List β) :
    lastOf key k (xs.map f) = (lastOf (fun x => key (f x)) k xs).map f := by
  rw [lastOf, ← List.map_reverse, List.find?_map]
  rfl

theorem lastOf_append {ys : List α} :
    lastOf key k (xs ++ ys) = (lastOf key k ys).or (lastOf key k xs) := by
  rw [lastOf, List.reverse_append, List.find?_append]
  rfl

theorem lastOf_eq_none_iff : lastOf key k xs = none ↔ k ∉ xs.map key := by
  simp [lastOf]

theorem mem_of_lastOf (h : lastOf key k xs = some x) : x ∈ xs ∧ key x = k :=
  ⟨List.mem_reverse.mp (List.mem_of_find?_eq_some h), by simpa using List.find?_some h⟩

theorem lastOf_filter {p : α → Bool} (h : lastOf key k xs = some x) (hp : p x = true) :
    lastOf key k (xs.filter p) = some x := by
  have ⟨hk, before, after, hxs, hbefore⟩ := List.find?_eq_some_iff_append.mp h
  rw [lastOf, ← List.filter_reverse, List.find?_filter]
  refine List.find?_eq_some_iff_append.mpr ⟨by simp [hp, hk], before, after, hxs, fun y hy => ?_⟩
  simp [hbefore y hy]

theorem replacements_concat : replacements key (xs ++ [x]) =
    replacements key xs ++ ((lastOf key (key x) xs).map (·, x)).toList := by
  have hprefix : xs.zipIdx.filterMap (fun (y, i) =>
      (lastOf key (key y) ((xs ++ [x]).take i)).map (·, y)) = replacements key xs := by
    refine List.filterMap_congr fun (y, i) hy => ?_
    have hi : i ≤ xs.length := Nat.le_of_lt (List.snd_lt_of_mem_zipIdx hy)
    simp only [List.take_append_of_le_length hi]
  rw [replacements, List.zipIdx_append, List.filterMap_append, hprefix]
  cases h : lastOf key (key x) xs <;> simp [h]

theorem replacements_map (f : β → α) (xs : List β) :
    replacements key (xs.map f) =
      (replacements (fun x => key (f x)) xs).map (Prod.map f f) := by
  induction xs using List.reverseRecOn
  case nil => rfl
  case append_singleton xs x hi =>
    rw [List.map_append, List.map_singleton, replacements_concat, replacements_concat, hi,
      List.map_append, lastOf_map]
    cases lastOf (fun x => key (f x)) (key (f x)) xs <;> rfl

theorem mem_of_mem_replacements {o : α × α} (h : o ∈ replacements key xs) :
    o.1 ∈ xs ∧ o.2 ∈ xs := by
  have ⟨(x, i), hx, ho⟩ := List.mem_filterMap.mp h
  have ⟨y, hy, ho⟩ := Option.map_eq_some_iff.mp ho
  cases ho
  have hy := List.mem_reverse.mp (List.mem_of_find?_eq_some hy)
  exact ⟨List.mem_of_mem_take hy, List.fst_mem_of_mem_zipIdx hx⟩

-- A table that is filled with values by their keys has the last one of each key.
theorem get?_ofList_keyed (g : α → γ) (k : κ) (xs : List α) :
    (ofList (xs.map fun x => (key x, g x))).get? k = (lastOf key k xs).map g := by
  rw [get?_ofList, ← List.map_reverse, DeclarationTree.lookup_map_key, lastOf]

-- It overwrites what is replaced.
theorem overwritten_map (g : α → γ) (xs : List α) :
    overwritten (xs.map fun x => (key x, g x)) =
      (replacements key xs).map fun o => (key o.2, g o.1, g o.2) := by
  induction xs using List.reverseRecOn
  case nil => rfl
  case append_singleton xs x hi =>
    rw [overwritten, List.map_append, overwrites_append,
      ← overwritten, hi, replacements_concat, List.map_append,
      ← ofList_eq_insertAll, List.map_singleton, overwrites, get?_ofList_keyed]
    cases lastOf key (key x) xs <;> simp [overwrites]

-- All but one for each key replace another.
theorem length_replacements (key : α → κ) (xs : List α) :
    (replacements key xs).length + (xs.map key).toFinset.card = xs.length := by
  let es := xs.map fun x => (key x, x)
  have hoverwritten : (overwritten es).length = (replacements key xs).length := by
    rw [overwritten_map (fun x => x) xs, List.length_map]
  have hkeys : (ofList es).keys.length = (xs.map key).toFinset.card := by
    rw [keys_ofList, List.map_map,
      ← List.toFinset_card_of_nodup (nodup_eraseDups _)]
    exact congrArg Finset.card (Finset.ext fun k => by simp)
  rw [← hoverwritten, ← hkeys, length_overwritten, List.length_map]

end

-- How many names there are among `es`.
def nameCount (es : List Element) : Nat := (es.map (·.nameOrKeyword)).toFinset.card

-- `report` points at the second of two elements, and then at the first.
def PointsAt (o : Element × Element) (report : Diagnostic) : Prop :=
  ∃ here there, report.labels =
    [.primary o.2.provenance here, .secondary o.1.provenance there]

-- `reports` tell of each of `es` that replaces another one of its name, in order, and of nothing
-- else.
structure Accounted (es : List Element) (reports : List Diagnostic) : Prop where
  count : reports.length + nameCount es = es.length
  points : List.Forall₂ PointsAt (replacements (·.nameOrKeyword) es) reports

theorem accounted_map {es : List Element} {report : Element × Element → Diagnostic}
    (h : ∀ o, PointsAt o (report o)) :
    Accounted es ((replacements (·.nameOrKeyword) es).map report) where
  count := by
    rw [List.length_map]
    exact length_replacements _ es
  points := List.forall₂_map_right_iff.mpr (List.forall₂_same.mpr fun o _ => h o)

theorem DeclarationTree.accounted_duplicates (owner : Element) :
    Accounted owner.declarations (duplicates owner) := by
  rw [duplicates_eq, namedIn, overwritten_map (fun e => e), List.map_map]
  exact accounted_map fun _ => ⟨_, _, rfl⟩

namespace Declarations

-- A declaration with the tree that it stands in, and the place of that tree among all trees.
structure Sourced where
  element : Element
  tree : Element
  place : Nat

namespace Sourced

def name (s : Sourced) : String := s.element.nameOrKeyword

def declaration (s : Sourced) : Declaration := ⟨s.element, s.tree.modelName⟩

end Sourced

variable {select : Element → List Element} {trees : List Element}

-- What `select` finds in the scopes of `trees`, in the order in which it is collected.
def found (select : Element → List Element) (trees : List Element) : List Sourced :=
  trees.zipIdx.reverse.flatMap fun (tree, place) =>
    (scopes tree).flatMap fun scope => (select scope).map fun e => ⟨e, tree, place⟩

theorem flatMap_reverse_zipIdx {β : Type} (g : Element → List β) (trees : List Element) :
    trees.zipIdx.reverse.flatMap (fun (tree, _) => g tree) = trees.reverse.flatMap g := by
  have h : trees.reverse = trees.zipIdx.reverse.map Prod.fst := by
    rw [List.map_reverse, List.zipIdx_map_fst]
  rw [h, List.flatMap_map]

theorem element_found (select : Element → List Element) (trees : List Element) :
    (found select trees).map (·.element) =
      trees.reverse.flatMap fun tree => (scopes tree).flatMap select := by
  rw [found, ← flatMap_reverse_zipIdx]
  simp only [List.map_flatMap, List.map_map, Function.comp_def, List.map_id']

theorem allGiven_eq_found (select : Element → List Element) (trees : List Element) :
    allGiven (fun origin scope => declarationEntries origin (select scope)) trees =
      (found select trees).map fun s => (s.name, s.declaration) := by
  rw [allGiven, found, ← flatMap_reverse_zipIdx]
  simp only [given, declarationEntries, List.map_flatMap, List.map_map]
  rfl

-- The report on a declaration of a kind that replaces another.
def report (kind : DescriptionKind) (o : Sourced × Sourced) : Diagnostic :=
  collision kind o.2.name o.2.tree.modelName o.1.declaration o.2.element

theorem map_tell_overwritten (kind : DescriptionKind) (select : Element → List Element)
    (trees : List Element) :
    (overwritten (allGiven (fun origin scope => declarationEntries origin (select scope))
      trees)).map (tell kind) =
        (replacements Sourced.name (found select trees)).map (report kind) := by
  rw [allGiven_eq_found, overwritten_map Sourced.declaration, List.map_map]
  rfl

theorem accounted_report (kind : DescriptionKind) (select : Element → List Element)
    (trees : List Element) :
    Accounted (trees.reverse.flatMap fun tree => (scopes tree).flatMap select)
      ((replacements Sourced.name (found select trees)).map (report kind)) := by
  have hpoints (o : Sourced × Sourced) :
      PointsAt (o.1.element, o.2.element) (report kind o) := by
    unfold report collision
    split <;> exact ⟨_, _, rfl⟩
  rw [← element_found]
  constructor
  case count =>
    have hnames : nameCount ((found select trees).map (·.element)) =
        ((found select trees).map Sourced.name).toFinset.card := by
      rw [nameCount, List.map_map]
      rfl
    rw [List.length_map, List.length_map, hnames]
    exact length_replacements _ _
  case points =>
    rw [replacements_map, List.forall₂_map_left_iff, List.forall₂_map_right_iff]
    exact List.forall₂_same.mpr fun o _ => hpoints o

end Declarations

namespace Placement

theorem map_fst_numbered (start : Nat) (es : List Element) :
    (numbered start es).map Prod.fst = List.range' start es.length := by
  rw [numbered, List.map_map]
  exact List.zipIdx_map_snd start es

theorem map_snd_numbered (start : Nat) (es : List Element) :
    (numbered start es).map Prod.snd = es := by
  rw [numbered, List.map_map]
  exact List.zipIdx_map_fst start es

theorem nodes_ofAll (m : Model) (ds : List Declaration) :
    (ofAll m ds).nodes = numbered m.size (Declarations.placed ds) :=
  List.nil_append _

theorem size_ofAll (m : Model) (ds : List Declaration) :
    (ofAll m ds).model.size = m.size + (Declarations.placed ds).length := by
  rw [← Declarations.length_block m.size ds]
  exact Model.size_grow ..

end Placement

-- Where declarations share a name, each but the first is reported once, with the one before it: at
-- the top of trees among the species and among the experiments of all scopes, and below each
-- declaration that is placed among those directly nested in it.
open Declarations in
theorem one_report_per_replacement (trees : List Element) {m : Model}
    (h : m.root.isFinalized = false) :
    let collected (select : Element → List Element) : List Element :=
      trees.reverse.flatMap fun tree => (scopes tree).flatMap select
    Accounted (collected (·.speciesDeclarations))
      ((ofTrees trees).2.filter fun d => !d.onExperiment) ∧
    Accounted (collected (·.experiments)) ((ofTrees trees).2.filter (·.onExperiment)) ∧
    ∃ p reports, Placement.ofDeclarations m (ofTrees trees).1 = ⟨.ok p, reports.flatten⟩ ∧
      p.nodes.map Prod.fst = List.range' m.size (p.model.size - m.size) ∧
      List.Forall₂ (fun n rs => Accounted n.2.declarations rs ∧
        ∀ d ∈ rs, d.severity = .error ∧ d.code = some .duplicateMicro) p.nodes reports ∧
      reports.flatten.length = (p.nodes.map fun n =>
        n.2.declarations.length - nameCount n.2.declarations).sum := by
  have hnodes := Placement.nodes_ofAll m (ofTrees trees).1.all
  have hes := Placement.map_snd_numbered m.size (placed (ofTrees trees).1.all)
  have hplaced : Placement.ofDeclarations m (ofTrees trees).1 = _ :=
    Placement.ofDeclarations_eq (fun _ => isDeclaration_of_mem_all) h
  rw [← hes, ← hnodes, List.flatMap_map, List.flatMap_def] at hplaced
  refine ⟨?species, ?experiments, _, _, hplaced, ?indices, ?each, ?sum⟩
  case species =>
    rw [speciesCollisions_ofTrees]
    exact map_tell_overwritten .species _ trees ▸ accounted_report .species _ trees
  case experiments =>
    rw [experimentCollisions_ofTrees]
    exact map_tell_overwritten .experiment _ trees ▸ accounted_report .experiment _ trees
  case indices =>
    have hsize := Placement.size_ofAll m (ofTrees trees).1.all
    rw [hnodes, Placement.map_fst_numbered]
    exact congrArg (List.range' m.size) (Nat.sub_eq_of_eq_add' hsize).symm
  case each =>
    refine List.forall₂_map_right_iff.mpr (List.forall₂_same.mpr fun n _ => ?_)
    refine ⟨DeclarationTree.accounted_duplicates n.2, fun d hd => ?_⟩
    rw [DeclarationTree.duplicates_eq] at hd
    have ⟨o, _, hd⟩ := List.mem_map.mp hd
    cases hd
    exact ⟨rfl, rfl⟩
  case sum =>
    rw [List.length_flatten, List.map_map]
    refine congrArg List.sum (List.map_congr_left fun n _ => ?_)
    exact Nat.eq_sub_of_add_eq (DeclarationTree.accounted_duplicates n.2).count

-- A town and an import of it: a city is declared three times, each time with two parks of one name.
def districts : List Element :=
  let park : Element := { kind := .grid, name := some "park" }
  let city : Element := { kind := .species, name := some "city", children := [park, park] }
  let global : Element := { kind := .global, children := [city] }
  [{ kind := .model, name := some "town", children := [city, global] },
    { kind := .model, name := some "suburb", children := [city] }]

def districtModel : Model where
  descriptions := [.new .model .model "town_model" ∅]
  nonempty := List.cons_ne_nil _ _
  registry := .defaults

-- Two cities are replaced, and a park of the city that is left.
open Declarations in
theorem one_report_per_replacement_in_districts :
    ((ofTrees districts).2.filter fun d => !d.onExperiment).length = 2 ∧
      ∃ p reports, Placement.ofDeclarations districtModel (ofTrees districts).1 =
          ⟨.ok p, reports⟩ ∧ p.nodes.map Prod.fst = [1, 2] ∧ reports.length = 1 := by
  have ⟨species, _, p, reports, hplaced, hnodes, _, _⟩ :=
    one_report_per_replacement districts (m := districtModel) rfl
  have hsize : (Placement.ofDeclarations districtModel (ofTrees districts).1).result.toOption.map
      (·.model.size) = some 3 := by decide +kernel
  have hcount : (Placement.ofDeclarations districtModel (ofTrees districts).1).diagnostics.length =
      1 := by decide +kernel
  rw [hplaced] at hsize hcount
  have hp : p.model.size = 3 := Option.some.inj hsize
  refine ⟨?species, p, reports.flatten, hplaced, ?nodes, hcount⟩
  case species => exact Nat.add_right_cancel species.count
  case nodes =>
    rw [hnodes, hp]
    rfl

end ModelAssembly
