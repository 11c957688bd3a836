import ModelAssembly.Proofs.Collisions
import ModelAssembly.Proofs.Instantiation
/-!
The names in a scope. Directly in a declaration every name is there once, whatever it is declared
for. The root keeps species, experiments and the scheduler apart, so that one name can stand for one
of each.

Main statements: `names_root` and `names_nested` list the names in the root and in other
descriptions; `names_in_scopes` relates them to what is reported.
-/

namespace ModelAssembly

namespace Element

theorem map_name_survivors (e : Element) :
    e.survivors.map (·.nameOrKeyword) = (e.declarations.map (·.nameOrKeyword)).eraseDups := by
  let table : OrderedMap String Element := .ofList (DeclarationTree.namedIn e)
  have hkeyed : table.KeyedBy (·.nameOrKeyword) := by
    refine OrderedMap.keyedBy_ofList fun x hx => ?_
    have ⟨_, _, he⟩ := List.mem_map.mp hx
    exact he ▸ rfl
  have hvalues : table.values = e.survivors :=
    (DeclarationTree.values_ofList_named id e.declarations).trans (List.map_id _)
  have hkeys : table.keys = ((DeclarationTree.namedIn e).map Prod.fst).eraseDups :=
    OrderedMap.keys_ofList _
  rw [← hvalues, hkeyed.map_values, hkeys, DeclarationTree.namedIn, List.map_map]
  rfl

end Element

namespace Declarations

variable {trees : List Element}

-- The names of the declarations in a table are those that were declared for it, each once.
theorem map_name_values {es : Element → List Element} {table : OrderedMap String Declaration}
    (h : table =
      .ofList (allGiven (fun origin scope => declarationEntries origin (es scope)) trees)) :
    table.values.map (·.element.nameOrKeyword) =
      ((allGiven (fun origin scope => declarationEntries origin (es scope)) trees).map
        Prod.fst).eraseDups := by
  have hkeyed : table.KeyedBy (·.element.nameOrKeyword) := by
    rw [h]
    refine OrderedMap.keyedBy_ofList fun x hx => ?_
    have ⟨_, _, _, _, hx⟩ := mem_allGiven hx
    have ⟨_, _, he⟩ := List.mem_map.mp hx
    exact he ▸ rfl
  rw [hkeyed.map_values, h, OrderedMap.keys_ofList]

theorem map_name_all (trees : List Element) :
    (ofTrees trees).1.all.map (·.element.nameOrKeyword) =
      ((allGiven speciesEntries trees).map Prod.fst).eraseDups ++
        ((allGiven experimentEntries trees).map Prod.fst).eraseDups := by
  rw [all, List.map_append, map_name_values (species_ofTrees trees),
    map_name_values (experiments_ofTrees trees)]
  rfl

end Declarations

namespace Model

variable {m : Model} {owner i j k : Nat} {Ds : List Declaration} {is : List Nat} {d : Description}

-- The own descriptions directly in the one at `i`.
def ownIn (m : Model) (i : Nat) : List Description :=
  ((m.microOf i).filterMap m.get?).filter (·.isOwn)

theorem ownIn_rootIndex : m.ownIn rootIndex = m.ownTop.filterMap m.get? := by
  rw [ownIn, ownTop, List.filter_filterMap, List.filterMap_filter,
    microOf_of_get? (get?_rootIndex m)]
  refine List.filterMap_congr fun j _ => ?_
  cases m.get? j
  case none => rfl
  case some d => rfl

namespace Mirrors

theorem names_eq (h : Mirrors m owner i Ds is j) :
    (is.filterMap m.get?).map (·.name) = Ds.map (·.element.nameOrKeyword) ∧
      ∀ d ∈ is.filterMap m.get?, d.isOwn = true := by
  induction h
  case nil => simp
  case cons hd hs _ _ _ hir =>
    rw [List.filterMap_cons_some hd, List.map_cons, List.map_cons, hs.name, hir.1]
    exact ⟨rfl, List.forall_mem_cons.mpr ⟨hs.isOwn, hir.2⟩⟩

theorem nested_of_getElem? {n x : Nat} {D : Declaration} (h : Mirrors m owner i Ds is j)
    (hx : is[n]? = some x) (hD : Ds[n]? = some D) :
    ∃ stop, m.Mirrors x (x + 1) D.nested (m.microOf x) stop := by
  induction h generalizing n
  case nil => cases hx
  case cons hd _ hnest _ _ hir =>
    cases n
    case zero =>
      cases hx
      cases hD
      exact ⟨_, (microOf_of_get? hd).symm ▸ hnest⟩
    case succ n => exact hir hx hD

-- What a description in the stretch contains mirrors what is nested in its declaration.
theorem exists_nested (h : Mirrors m owner i Ds is j) (hi : i ≤ k) (hj : k < j) :
    ∃ d D o stop, m.get? k = some d ∧ d.StandsFor D o ∧ D.element ∈ Declarations.placed Ds ∧
      m.Mirrors k (k + 1) D.nested (m.microOf k) stop := by
  let P (x : Nat) (D : Declaration) : Prop :=
    ∃ stop, m.Mirrors x (x + 1) D.nested (m.microOf x) stop
  have ⟨d, D, o, hd, hs, ⟨stop, hm⟩, hD⟩ := h.exists_standsFor (P := P)
    (fun n x D => h.nested_of_getElem?) (fun o D n x E ⟨_, hm⟩ => hm.nested_of_getElem?) hi hj
  exact ⟨d, D, o, stop, hd, hs, List.mem_of_getElem? hD, hm⟩

end Mirrors

end Model

namespace Assembler.Run

open Declarations Model

variable {a : Assembler} {r : Request} {m : Model} (run : Run a r m) {i : Nat} {d : Description}

include run

theorem names_root : (m.ownIn rootIndex).map (·.name) =
    ((allGiven speciesEntries r.trees).map Prod.fst).eraseDups ++
      ((allGiven experimentEntries r.trees).map Prod.fst).eraseDups ++
        if a.addsScheduler r then [Keyword.scheduler] else [] := by
  have hscheduler : ((if a.addsScheduler r then [run.model.size] else []).filterMap m.get?).map
      (·.name) = if a.addsScheduler r then [Keyword.scheduler] else [] := by
    cases ha : a.addsScheduler r
    case false => rfl
    case true =>
      have ⟨d, hd, hs⟩ := run.get?_scheduler ha
      simp [hd, hs.name]
  rw [ownIn_rootIndex, run.ownTop_final, List.filterMap_append, List.map_append, hscheduler,
    run.mirrors_final.names_eq.1, ← map_name_all]
  rfl

-- Other descriptions contain one for each name declared in them.
theorem names_nested (h0 : i ≠ rootIndex) (hd : m.get? i = some d) (ho : d.isOwn = true) :
    m.ownIn i = [] ∨ ∃ e ∈ placed run.declared, d.name = e.nameOrKeyword ∧
      (m.ownIn i).map (·.name) = (e.declarations.map (·.nameOrKeyword)).eraseDups := by
  cases run.linked_or_scheduler h0 hd
  case inl hlinked =>
    have hi := (run.isOwn_final h0 hd).mp ho
    obtain ⟨_, he, _⟩ := hlinked
    obtain ⟨d', D, _, _, hd', hs, hD, hm⟩ :=
      run.mirrors_final.exists_nested hi (lt_size_of_get? he)
    cases hd.symm.trans hd'
    obtain ⟨hnames, hown⟩ := hm.names_eq
    refine .inr ⟨D.element, hD, hs.name, ?_⟩
    rw [ownIn, List.filter_eq_self.mpr hown, hnames, Declaration.nested, List.map_map,
      ← Element.map_name_survivors]
    rfl
  case inr hs => exact .inl (by rw [ownIn, microOf_of_get? hd, hs.2.2.micro]; rfl)

end Assembler.Run

-- When the names in the root are distinct.
theorem nodup_names_iff {species experiments : List String} {scheduled : Bool} :
    (species.eraseDups ++ experiments.eraseDups ++
      if scheduled then [Keyword.scheduler] else []).Nodup ↔
      (∀ n ∈ species, n ∉ experiments) ∧
        (scheduled = true → Keyword.scheduler ∉ species ∧ Keyword.scheduler ∉ experiments) := by
  have hdisjoint : (∀ n ∈ species.eraseDups, ∀ x ∈ experiments.eraseDups, n ≠ x) ↔
      ∀ n ∈ species, n ∉ experiments := by
    simp only [List.mem_eraseDups]
    exact ⟨fun h n hn hx => h n hn n hx rfl, fun h n hn x hx he => h n hn (he ▸ hx)⟩
  have hscheduler (ns : List String) :
      (∀ n ∈ ns, n ≠ Keyword.scheduler) ↔ Keyword.scheduler ∉ ns :=
    ⟨fun h hn => h _ hn rfl, fun h n hn he => h (he ▸ hn)⟩
  rw [List.nodup_append, List.nodup_append, hdisjoint]
  cases scheduled
  case false => simp [OrderedMap.nodup_eraseDups]
  case true =>
    simp [OrderedMap.nodup_eraseDups, or_imp, forall_and, hscheduler]

-- In each scope a name is there once, and each further declaration of it is reported. In the root
-- this holds for species and for experiments by themselves; nor is the name of the scheduler kept
-- free there.
open Declarations Model OrderedMap in
theorem names_in_scopes {a : Assembler} {r : Request} {m : Model}
    (h : (a.assemble r).result = .ok m) :
    let species := allGiven speciesEntries r.trees
    let experiments := allGiven experimentEntries r.trees
    let declared := placed (ofTrees r.trees).1.all
    let names (es : List (String × Declaration)) : List String := es.map Prod.fst
    -- What there is in the root, and when its names are distinct.
    (m.ownIn rootIndex).map (·.name) = (names species).eraseDups ++ (names experiments).eraseDups ++
      (if a.addsScheduler r then [Keyword.scheduler] else []) ∧
    (((m.ownIn rootIndex).map (·.name)).Nodup ↔
      (∀ n ∈ names species, n ∉ names experiments) ∧ (a.addsScheduler r = true →
        Keyword.scheduler ∉ names species ∧ Keyword.scheduler ∉ names experiments)) ∧
    -- What there is in other descriptions.
    (∀ i d, i ≠ rootIndex → m.get? i = some d → d.isOwn = true →
      ((m.ownIn i).map (·.name)).Nodup ∧
      (m.ownIn i = [] ∨ ∃ e ∈ declared, d.name = e.nameOrKeyword ∧
        (m.ownIn i).map (·.name) = (e.declarations.map (·.nameOrKeyword)).eraseDups)) ∧
    -- What is reported.
    (∃ top, (a.assemble r).diagnostics.filter (·.isCollision) = top ++ declared.flatMap (fun e =>
        (overwritten (DeclarationTree.namedIn e)).map
          fun o => DeclarationTree.duplicate e o.2.1 o.2.2) ∧
      top.filter (fun d => !d.onExperiment) = (overwritten species).map (tell .species) ∧
      top.filter (·.onExperiment) = (overwritten experiments).map (tell .experiment)) ∧
    (∀ n, ((overwritten species).map Prod.fst).count n = (names species).count n - 1 ∧
      ((overwritten experiments).map Prod.fst).count n = (names experiments).count n - 1 ∧
      ∀ e ∈ declared, ((overwritten (DeclarationTree.namedIn e)).map Prod.fst).count n =
        (e.declarations.map (·.nameOrKeyword)).count n - 1) := by
  have ⟨run⟩ := Assembler.exists_run h
  refine ⟨run.names_root, ?distinct, fun i d h0 hd ho => ?nested, ⟨_, ?reports,
    speciesCollisions_ofTrees _, experimentCollisions_ofTrees _⟩, fun n => ?count⟩
  case distinct =>
    rw [run.names_root]
    exact nodup_names_iff
  case nested =>
    have hnames := run.names_nested h0 hd ho
    refine ⟨?_, hnames⟩
    cases hnames
    case inl he => rw [he]; exact .nil
    case inr he =>
      have ⟨_, _, _, he⟩ := he
      exact he ▸ nodup_eraseDups _
  case reports =>
    rw [Assembler.collisions_eq h]
    exact congrArg _ (List.flatMap_congr fun e _ => DeclarationTree.duplicates_eq e)
  case count =>
    refine ⟨count_overwritten _ n, count_overwritten _ n, fun e _ => ?_⟩
    rw [count_overwritten, DeclarationTree.namedIn, List.map_map]
    rfl

-- Of the two parks in the city one is left.
theorem names_in_scopes_of_city : ∃ m, (({} : Assembler).assemble cityRequest).result = .ok m ∧
    (m.ownIn Model.rootIndex).map (·.name) = ["city"] ∧
    (m.ownIn 1).map (·.name) = ["park", "road"] ∧ ((m.ownIn 1).map (·.name)).Nodup := by
  have hfacts : (({} : Assembler).assemble cityRequest).result.toOption.map (fun m =>
      ((m.get? 1).map (·.isOwn), (m.ownIn 1).map (·.name))) =
        some (some true, ["park", "road"]) := by
    decide +kernel
  have hnames : ((Declarations.allGiven Declarations.speciesEntries cityRequest.trees).map
      Prod.fst).eraseDups ++ ((Declarations.allGiven Declarations.experimentEntries
        cityRequest.trees).map Prod.fst).eraseDups ++
          (if ({} : Assembler).addsScheduler cityRequest then [Keyword.scheduler] else []) =
      ["city"] := by
    decide +kernel
  have ⟨m, hm, hfacts⟩ := Option.map_eq_some_iff.mp hfacts
  have hm := toOption_eq_some_iff.mp hm
  have ⟨hown, hmicro⟩ := Prod.mk.inj hfacts
  have ⟨d, hd, ho⟩ := Option.map_eq_some_iff.mp hown
  have ⟨hroot, _, hnested, _⟩ := names_in_scopes hm
  have ⟨hnodup, _⟩ := hnested 1 d (by decide) hd ho
  exact ⟨m, hm, hroot.trans hnames, hmicro, hnodup⟩

-- A species and an experiment of one name.
def clashRequest : Request where
  primary := "main"
  trees := [{
    kind := .model
    name := some "main"
    children := [
      { kind := .species, name := some "wolf" },
      { kind := .experiment, name := some "wolf" }] }]

-- Both are left, and nothing is reported.
theorem names_clash_in_root : ∃ m, ({} : Assembler).assemble clashRequest = ⟨.ok m, []⟩ ∧
    (m.ownIn Model.rootIndex).map (fun d => (d.name, d.kind)) =
      [("wolf", .species), ("wolf", .experiment)] := by
  have hfacts : (({} : Assembler).assemble clashRequest).result.toOption.map (fun m =>
      (m.ownIn Model.rootIndex).map fun d => (d.name, d.kind)) =
        some [("wolf", .species), ("wolf", .experiment)] := by
    decide +kernel
  have hreports : (({} : Assembler).assemble clashRequest).diagnostics = [] := by
    decide +kernel
  have ⟨m, hm, hnames⟩ := Option.map_eq_some_iff.mp hfacts
  exact ⟨m, Outcome.ext (toOption_eq_some_iff.mp hm) hreports, hnames⟩

end ModelAssembly
