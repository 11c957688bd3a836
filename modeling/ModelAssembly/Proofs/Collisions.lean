import ModelAssembly.Proofs.Drafting
/-!
Collisions: what is reported where several declarations of a scope share a name. A table that is
filled entry by entry tells of each entry that takes the place of another, so that every name that
was declared either survives or is reported.

Main statements: `count_overwritten` is that count; `speciesCollisions_ofTrees`,
`experimentCollisions_ofTrees` and `duplicates_eq` say what the reports of the scopes are;
`Assembler.collisions_eq` that an assembly reports these and no other collisions.
-/

namespace ModelAssembly

namespace OrderedMap

variable {κ α β : Type} [DecidableEq κ] {m : OrderedMap κ α} {es fs : List (κ × α)}

-- What setting the entries of a list in `m` overwrites: keys with their previous and their current
-- values.
def overwrites (m : OrderedMap κ α) : List (κ × α) → List (κ × α × α)
  | [] => []
  | e :: es => ((m.get? e.1).map (e.1, ·, e.2)).toList ++ (m.insert e.1 e.2).overwrites es

theorem overwrites_append :
    m.overwrites (es ++ fs) = m.overwrites es ++ (m.insertAll es).overwrites fs := by
  induction es generalizing m
  case nil => rfl
  case cons e es hi =>
    have hc : (e :: es) ++ fs = e :: (es ++ fs) := rfl
    rw [hc, overwrites, overwrites, hi, List.append_assoc]
    rfl

-- Each entry that is set overwrites another, or else its key is new.
theorem perm_overwrites :
    ((m.overwrites es).map Prod.fst ++ (m.insertAll es).keys).Perm (m.keys ++ es.map Prod.fst) := by
  induction es generalizing m
  case nil => simp [overwrites]
  case cons e es hi =>
    have hall : m.insertAll (e :: es) = (m.insert e.1 e.2).insertAll es := rfl
    have hrest := hi (m := m.insert e.1 e.2)
    rw [keys_insert] at hrest
    rw [overwrites, hall]
    cases hv : m.get? e.1
    case none =>
      have hk : e.1 ∉ m.keys := by simp [mem_keys_iff, contains, hv]
      simpa [hk] using hrest
    case some v =>
      have hk : e.1 ∈ m.keys := by simp [mem_keys_iff, contains, hv]
      rw [if_pos hk] at hrest
      exact (hrest.cons e.1).trans List.perm_middle.symm

-- What is overwritten when a table is filled with the entries of a list.
def overwritten (es : List (κ × α)) : List (κ × α × α) := (∅ : OrderedMap κ α).overwrites es

theorem length_overwritten (es : List (κ × α)) :
    (overwritten es).length + (ofList es).keys.length = es.length := by
  have hperm : ((overwritten es).map Prod.fst ++ (ofList es).keys).Perm (es.map Prod.fst) :=
    perm_overwrites
  simpa using hperm.length_eq

-- A key is overwritten as often as it is set, but for once.
theorem count_overwritten (es : List (κ × α)) (k : κ) :
    ((overwritten es).map Prod.fst).count k = (es.map Prod.fst).count k - 1 := by
  have hperm : ((overwritten es).map Prod.fst ++ (ofList es).keys).Perm (es.map Prod.fst) :=
    perm_overwrites
  have hcount := hperm.count_eq k
  rw [List.count_append, keys_ofList] at hcount
  by_cases hk : k ∈ es.map Prod.fst
  case pos =>
    have hone : (es.map Prod.fst).eraseDups.count k = 1 :=
      List.count_eq_one_of_mem (nodup_eraseDups _) (List.mem_eraseDups.mpr hk)
    rw [← hcount, hone, Nat.add_sub_cancel]
  case neg =>
    rw [List.count_eq_zero.mpr hk] at hcount ⊢
    exact (Nat.add_eq_zero_iff.mp hcount).1

-- Filling a table and telling of what is overwritten.
theorem foldl_insert_report (report : κ × α × α → β) (s : OrderedMap κ α × List β) :
    es.foldl (fun s e => (s.1.insert e.1 e.2,
        s.2 ++ ((s.1.get? e.1).map fun v => report (e.1, v, e.2)).toList)) s =
      (s.1.insertAll es, s.2 ++ (s.1.overwrites es).map report) := by
  induction es generalizing s
  case nil => simp [overwrites]
  case cons e es hi =>
    rw [List.foldl_cons, hi, overwrites, List.map_append, ← List.append_assoc]
    cases s.1.get? e.1 <;> rfl

end OrderedMap

open OrderedMap

namespace Declarations

variable {origin : String} {scope : Element} {ds : Declarations × List Diagnostic}

-- The report on a declaration of a kind that takes the place of another.
def tell (kind : DescriptionKind) (o : String × Declaration × Declaration) : Diagnostic :=
  collision kind o.1 o.2.2.origin o.2.1 o.2.2.element

theorem onExperiment_tell {kind : DescriptionKind} {o : String × Declaration × Declaration} :
    (tell kind o).onExperiment = decide (kind = .experiment) := by
  unfold tell collision
  split <;> rfl

theorem foldl_declare_eq (kind : DescriptionKind) (es : List Element)
    (table : OrderedMap String Declaration × List Diagnostic) :
    es.foldl (declare kind origin) table = (table.1.insertAll (declarationEntries origin es),
      table.2 ++ (table.1.overwrites (declarationEntries origin es)).map (tell kind)) := by
  rw [← foldl_insert_report, declarationEntries, List.foldl_map]
  rfl

theorem snd_addScope : (addScope origin ds scope).2 = ds.2 ++
    (ds.1.species.overwrites (speciesEntries origin scope)).map (tell .species) ++
      (ds.1.experiments.overwrites (experimentEntries origin scope)).map (tell .experiment) := by
  simp only [addScope, foldl_declare_eq]
  rfl

-- The reports on what trees give to a table, if this is how the reports on what a scope gives come.
theorem filter_ofTrees {entries : String → Element → List (String × Declaration)}
    {table : Declarations → OrderedMap String Declaration} {p : Diagnostic → Bool}
    {kind : DescriptionKind} (hempty : table {} = ∅)
    (ht : ∀ origin ds scope,
      table (addScope origin ds scope).1 = (table ds.1).insertAll (entries origin scope))
    (hr : ∀ origin ds scope, (addScope origin ds scope).2.filter p = ds.2.filter p ++
      ((table ds.1).overwrites (entries origin scope)).map (tell kind)) (trees : List Element) :
    (ofTrees trees).2.filter p =
      (overwritten (allGiven entries trees)).map (tell kind) := by
  have hscopes (origin : String) (ss : List Element) (ds : Declarations × List Diagnostic) :
      (ss.foldl (addScope origin) ds).2.filter p = ds.2.filter p ++
        ((table ds.1).overwrites (ss.flatMap (entries origin))).map (tell kind) := by
    induction ss generalizing ds
    case nil => simp [overwrites]
    case cons s ss hi =>
      rw [List.foldl_cons, hi, ht, hr, List.flatMap_cons, overwrites_append, List.map_append,
        List.append_assoc]
  have htrees (ts : List Element) (ds : Declarations × List Diagnostic) :
      (ts.foldl addTree ds).2.filter p = ds.2.filter p ++
        ((table ds.1).overwrites (ts.flatMap (given entries))).map (tell kind) := by
    induction ts generalizing ds
    case nil => simp [overwrites]
    case cons t ts hi =>
      rw [List.foldl_cons, hi, addTree, table_foldl_addScope ht, hscopes, List.flatMap_cons,
        overwrites_append, List.map_append, List.append_assoc]
      rfl
  have h := htrees trees.reverse ({}, [])
  rw [hempty] at h
  exact h

theorem speciesCollisions_ofTrees (trees : List Element) :
    (ofTrees trees).2.filter (fun d => !d.onExperiment) =
      (overwritten (allGiven speciesEntries trees)).map (tell .species) := by
  refine filter_ofTrees rfl species_addScope (fun origin ds scope => ?_) trees
  simp [snd_addScope, List.filter_map, Function.comp_def, onExperiment_tell]

theorem experimentCollisions_ofTrees (trees : List Element) :
    (ofTrees trees).2.filter (·.onExperiment) =
      (overwritten (allGiven experimentEntries trees)).map (tell .experiment) := by
  refine filter_ofTrees rfl experiments_addScope (fun origin ds scope => ?_) trees
  simp [snd_addScope, List.filter_map, Function.comp_def, onExperiment_tell]

end Declarations

namespace DeclarationTree

-- The declarations directly in `owner`, by name.
def namedIn (owner : Element) : List (String × Element) :=
  owner.declarations.map fun e => (e.nameOrKeyword, e)

theorem duplicates_eq (owner : Element) : duplicates owner =
    (overwritten (namedIn owner)).map fun o => duplicate owner o.2.1 o.2.2 := by
  let report (o : String × Element × Element) : Diagnostic := duplicate owner o.2.1 o.2.2
  have h : (namedIn owner).foldl _ ((∅ : OrderedMap String Element), []) = _ :=
    foldl_insert_report report (∅, [])
  rw [namedIn, List.foldl_map] at h
  exact congrArg Prod.snd h

end DeclarationTree

-- The codes of reports on names that are declared more than once.
def Code.ofCollision : List Code :=
  [.duplicateSpecies, .duplicateExperiment, .superseded, .duplicateMicro]

namespace Diagnostic

def isCollision (d : Diagnostic) : Bool := d.code.any (· ∈ Code.ofCollision)

theorem isCollision_of_mem_ofTrees {trees : List Element} {d : Diagnostic}
    (hd : d ∈ (Declarations.ofTrees trees).2) : d.isCollision = true := by
  have ⟨_, _, _, _, e, _, previous, he⟩ := Declarations.tellsOf_of_mem_ofTrees hd
  rw [he, Declarations.collision]
  split
  case isTrue =>
    simp only [Declarations.duplicate, isCollision]
    split <;> rfl
  case isFalse => rfl

theorem isCollision_of_mem_duplicates {e : Element} {d : Diagnostic}
    (hd : d ∈ DeclarationTree.duplicates e) : d.isCollision = true := by
  have ⟨_, c, hc, hcode⟩ := DeclarationTree.raises_of_mem_duplicates hd
  cases List.mem_singleton.mp hc
  rw [isCollision, hcode]
  rfl

end Diagnostic

namespace Outcome

variable {α : Type} {x : Outcome α} {cs : List Code}

theorem All.filter_isCollision (h : x.All (Diagnostic.Raises cs))
    (hcs : ∀ c ∈ cs, c ∉ Code.ofCollision) : x.diagnostics.filter (·.isCollision) = [] := by
  refine List.filter_eq_nil_iff.mpr fun d hd => ?_
  have ⟨_, c, hc, hcode⟩ := h d hd
  simp [Diagnostic.isCollision, hcode, hcs c hc]

end Outcome

namespace Assembler

open Declarations

variable {a : Assembler} {r : Request} {m : Model}

-- What is reported on the way to a model, stage by stage.
theorem Run.exists_diagnostics (run : Run a r m) (h : (a.assemble r).result = .ok m) :
    ∃ n, (a.assemble r).diagnostics = (a.settings.checkPlugins run.primary).diagnostics ++
      ((ofTrees r.trees).2 ++ ((placed (ofTrees r.trees).1.all).flatMap DeclarationTree.duplicates ++
        (run.model.addOwnMembers (ofTrees r.trees).1.members run.placement.nodes).diagnostics ++
          ((mergeDown run.complemented).diagnostics ++ (a.conclude n).diagnostics))) := by
  have ⟨n, hn, _⟩ := run.toLinking.exists_merged h
  rw [assemble_eq_populated, run.toLinking.populated_eq, bind_assoc] at h ⊢
  have ⟨_, hplugins, _⟩ := Outcome.bind_eq_ok_iff.mp h
  refine ⟨n, ?_⟩
  rw [Outcome.diagnostics_bind hplugins, bind_assoc, Outcome.report_bind,
    Outcome.diagnostics_bind run.toLinking.result_populate, Outcome.diagnostics_bind hn,
    run.toLinking.populate_eq, Outcome.report_bind]
  rfl

-- A model that is assembled comes with one report for each declaration that another one of its
-- scope took the place of, first for those at the top of trees. Other stages report other things.
theorem collisions_eq (h : (a.assemble r).result = .ok m) :
    (a.assemble r).diagnostics.filter (·.isCollision) = (ofTrees r.trees).2 ++
      (placed (ofTrees r.trees).1.all).flatMap DeclarationTree.duplicates := by
  have ⟨run⟩ := exists_run h
  have ⟨n, hall⟩ := run.exists_diagnostics h
  have hplugins := (a.settings.raises_checkPlugins run.primary).filter_isCollision (by decide)
  have hmembers := (run.model.raises_addOwnMembers (ofTrees r.trees).1.members
    run.placement.nodes).filter_isCollision (by decide)
  have hmerge := (raises_mergeDown run.complemented).filter_isCollision (by decide)
  have hconclude := (raises_conclude a n).filter_isCollision (by decide)
  have htop : (ofTrees r.trees).2.filter (·.isCollision) = (ofTrees r.trees).2 :=
    List.filter_eq_self.mpr fun _ => Diagnostic.isCollision_of_mem_ofTrees
  have hnested : ((placed (ofTrees r.trees).1.all).flatMap DeclarationTree.duplicates).filter
      (·.isCollision) = (placed (ofTrees r.trees).1.all).flatMap DeclarationTree.duplicates := by
    refine List.filter_eq_self.mpr fun d hd => ?_
    have ⟨e, _, hd⟩ := List.mem_flatMap.mp hd
    exact Diagnostic.isCollision_of_mem_duplicates hd
  simp only [hall, List.filter_append, hplugins, htop, hnested, hmembers, hmerge, hconclude,
    List.nil_append, List.append_nil]

end Assembler

end ModelAssembly
