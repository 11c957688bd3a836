import ModelAssembly.Proofs.Inheritance
import ModelAssembly.Proofs.Overrides
/-!
Built-in parents. A description is linked to a built-in one by name, and the name is taken from the
table for its kind. It is looked up among all registered descriptions, though, the species first, so
that a model or an experiment may come to the members of something else that goes by the name.

Main statements: `Run.table_of_builtIn` for the table that the name is taken from,
`Run.filled_root` for the members of the root, and `builtIn_parents_by_name`.
-/

namespace ModelAssembly

open Model Description

namespace Member

-- What is declared is not inherited.
theorem inheritedFrom_ofElement? {e : Element} {x : Member} (h : ofElement? e = some x) :
    x.inheritedFrom = none := by
  have ⟨_, _, he⟩ := Option.map_eq_some_iff.mp h
  exact he ▸ rfl

end Member

namespace Declarations

theorem inheritedFrom_of_mem_globalMembers {origin : String} {scope : Element} {x : Member}
    (h : x ∈ globalMembers origin scope) : x.inheritedFrom = none := by
  have ⟨y, hy, he⟩ := List.mem_map.mp h
  have ⟨_, _, hz⟩ := List.mem_filterMap.mp hy
  have hnone : y.inheritedFrom = none := Member.inheritedFrom_ofElement? hz
  exact he ▸ hnone

-- The members that are declared for the whole model, each in the place where its key comes first.
def globals (trees : List Element) : OrderedMap MemberKey Member :=
  .ofList (allGiven memberEntries trees)

variable {trees : List Element}

theorem inheritedFrom_of_globals {k : MemberKey} {x : Member}
    (h : (globals trees).get? k = some x) : x.inheritedFrom = none := by
  have ⟨tree, _, scope, _, hx⟩ := mem_allGiven (OrderedMap.mem_of_get?_ofList h)
  have ⟨y, hy, he⟩ := List.mem_map.mp hx
  cases he
  exact inheritedFrom_of_mem_globalMembers hy

end Declarations

namespace Assembler

open Declarations

variable {a : Assembler} {r : Request} {m : Model} {i : Nat} {d e : Description} {name : String}

-- Wherever links were cut, a link to a built-in description leads to one that is registered for the
-- kind of the child.
theorem Linking.table_of_cut (l : Linking a r) (hr : a.registry.Built) {species experiments order₁
      order₂ : List Nat} (hs : l.model.Linearized .species species order₁)
    (hx : l.model.Linearized .experiment experiments order₂)
    (hi : i = rootIndex ∨ l.base ≤ i) (hd : l.model.get? i = some d)
    (he : ((l.model.cut .species species).cut .experiment experiments).get? i = some e)
    (hp : e.parent = some (.builtIn name)) : ((a.registry.table d.kind).get? name).isSome := by
  have hkind {kind : DescriptionKind} (hk : l.model.isKin kind i = true) : d.kind = kind := by
    have ⟨d', hd', hkd, _⟩ := isKin_iff.mp hk
    cases hd.symm.trans hd'
    exact hkd
  rw [get?_cut, get?_cut, hd] at he
  cases he
  by_cases hix : i ∈ experiments
  case pos =>
    simp only [hix, if_true, Option.some.injEq, ParentLink.builtIn.injEq] at hp
    rw [hkind (hx.isKin hix), ← hp]
    exact hr.base (by decide)
  case neg =>
    by_cases his : i ∈ species
    case pos =>
      simp only [hix, his, if_true, if_false, Option.some.injEq, ParentLink.builtIn.injEq] at hp
      rw [hkind (hs.isKin his), ← hp]
      exact hr.base (by decide)
    case neg =>
      simp only [hix, his, if_false] at hp
      cases hi
      case inl h0 =>
        have ⟨name', hname, hreg⟩ := l.parent_root hr
        have hroot := root_eq_iff.mpr (h0 ▸ hd)
        rw [hroot, hp] at hname
        cases hname
        rw [← hroot, l.kind_root]
        exact hreg
      case inr hi =>
        have ⟨hf, hlink⟩ := l.fresh_of_le hi hd
        have hreg := l.parentLink_eq_builtIn hr (Option.some.inj (hlink.symm.trans hp))
        cases hf.kind
        case inl hk => simpa [isExperiment, hk] using hreg
        case inr hk => simpa [isExperiment, hk] using hreg

namespace Run

variable (run : Run a r m)

-- All that is changed in the root after merging are facets, contents and the lock.
theorem root_merged : m.root.members = run.merged.root.members ∧
    m.root.parent = run.merged.root.parent := by
  have ⟨_, hm⟩ := run.locked_final
  have ⟨f, ss, hs, _⟩ := run.exists_scheduled
  have ⟨d, hd, hl⟩ := hm.get? (get?_rootIndex _)
  have hfinal : Locked run.scheduled.root m.root := root_eq_iff.mpr hd ▸ hl
  have hscheduled : run.scheduled.root.members = run.merged.root.members ∧
      run.scheduled.root.parent = run.merged.root.parent := by
    rw [hs, root_grow, withRootFacets, alter, root_mapDescriptions]
    exact ⟨rfl, rfl⟩
  exact ⟨hfinal.members.trans hscheduled.1, hfinal.refilled.parent.trans hscheduled.2⟩

-- Merging members down species and experiments leaves the root alone.
theorem root_inherited : run.merged.root = run.inherited.root := by
  have ⟨species, experiments, hc⟩ := run.exists_cuts
  have hno {kind : DescriptionKind} (hk : kind ≠ .model) :
      ¬ run.model.isKin kind rootIndex = true := by
    intro h
    have hlt := Nat.lt_of_lt_of_le run.base_pos (run.placed_of_isKin hk h).1
    exact absurd hlt (Nat.lt_irrefl _)
  have hspecies : run.speciesMerged.get? rootIndex = some run.inherited.root := by
    have hcut : rootIndex ∉ species := fun h => hno (by decide) (hc.species.isKin h)
    have horder : rootIndex ∉ run.species.2 := fun h =>
      hno (by decide) (run.isKin_of_mem_order hc.species h)
    rw [(run.merged_species hc.species_eq hc.species).2.1 _ horder, hc.species_eq,
      get?_cut_of_not_mem (get?_rootIndex _) hcut]
  have hcut : rootIndex ∉ experiments := fun h => hno (by decide) (hc.experiments.isKin h)
  have horder : rootIndex ∉ run.experiments.2 := fun h =>
    hno (by decide) (run.isKin_of_mem_order hc.experiments h)
  rw [root_eq_iff, hc.merged_experiments.2.1 _ horder, hc.experiments_eq,
    get?_cut_of_not_mem hspecies hcut]

-- The root has the global members and, in front of them, what its parent passes on.
theorem filled_root (run : Run a r m) : m.root.members =
    ({ m.root with members := globals r.trees }.mergedWith (m.parentOf rootIndex)).members := by
  have ⟨d, d', hd, hset, hl⟩ := merges_of_inherit run.inherited_eq
  have hd' : run.inherited.root = d' := by
    rw [root_eq_iff, hset, get?_set hd, if_pos rfl]
  have hroot : run.complemented.root = d := root_eq_iff.mpr hd
  have hown : d.members = globals r.trees := hroot ▸ run.members_root_complemented
  have ⟨hmembers, hparent⟩ := run.root_merged
  have hlink : m.root.parent = d.parent := by
    rw [hparent, run.root_inherited, hd', hl.refilled.parent]
    cases run.complemented.parentOf rootIndex <;> rfl
  have ⟨n, hname⟩ := run.root_final.2.2.2
  have hreg : run.complemented.registry = a.registry := by
    rw [Linking.complemented, registry_mapDescriptions, run.registry_model]
  have hpar : m.parentOf rootIndex = run.complemented.parentOf rootIndex := by
    simp only [parentOf, get?_rootIndex, Option.bind_some, hroot, ← hlink, hname, resolve,
      run.registry_final, hreg]
  rw [hmembers, run.root_inherited, hd', hl.members, hpar]
  exact members_mergedWith_congr hown rfl

-- A built-in parent is registered for the kind of the child.
theorem table_of_builtIn (run : Run a r m) (hr : a.registry.Built) (hd : m.get? i = some d)
    (ho : d.isOwn = true) (hp : d.parent = some (.builtIn name)) :
    ((a.registry.table d.kind).get? name).isSome := by
  have ⟨species, experiments, hc⟩ := run.exists_cuts
  have hmerged {x y : Description} (hi : i = rootIndex ∨ run.base ≤ i)
      (hx : run.model.get? i = some x) (hy : run.merged.get? i = some y)
      (hlink : y.parent = some (.builtIn name)) : ((a.registry.table x.kind).get? name).isSome := by
    have ⟨e, he, hpe⟩ := hc.parent_merged hy
    exact run.table_of_cut hr hc.species hc.experiments hi hx he (hpe ▸ hlink)
  by_cases h0 : i = rootIndex
  case pos =>
    have hroot : m.root = d := root_eq_iff.mpr (h0 ▸ hd)
    have hlink : run.merged.root.parent = some (.builtIn name) := by
      rw [← run.root_merged.2, hroot, hp]
    have hkind : run.model.root.kind = d.kind := by
      rw [run.kind_root, ← hroot, run.root_final.2.1]
    exact hkind ▸ hmerged (.inl h0) (h0 ▸ get?_rootIndex _) (h0 ▸ get?_rootIndex _) hlink
  case neg =>
    have hi := (run.isOwn_final h0 hd).mp ho
    cases run.linked_or_scheduler h0 hd
    case inl hlinked =>
      have ⟨x, hx, hb⟩ := hlinked
      have ⟨y, d', hy, hd', hl⟩ := run.get?_of_lt h0 (lt_size_of_get? hx)
      cases hd.symm.trans hd'
      exact kind_of_bare hb ▸ hmerged (.inr hi) hx hy (hl.refilled.parent ▸ hp)
    case inr hs =>
      have ⟨_, _, hs⟩ := hs
      rw [hs.kind, ← ParentLink.builtIn.inj (Option.some.inj (hs.parent.symm.trans hp))]
      exact hr.agent

-- An own description with a built-in parent has members of its own and, in front of them, what that
-- parent passes on.
theorem exists_own_of_builtIn (run : Run a r m) (hr : a.registry.Built) (hd : m.get? i = some d)
    (ho : d.isOwn = true) (hp : d.parent = some (.builtIn name)) :
    ∃ own : OrderedMap MemberKey Member, (∀ k x, own.get? k = some x → x.inheritedFrom = none) ∧
      d.members = ({ d with members := own }.mergedWith (m.parentOf i)).members := by
  by_cases h0 : i = rootIndex
  case pos =>
    have hroot : m.root = d := root_eq_iff.mpr (h0 ▸ hd)
    exact ⟨globals r.trees, fun _ _ => inheritedFrom_of_globals, h0 ▸ hroot ▸ run.filled_root⟩
  case neg =>
    have hfilled := run.filled_of_own hd (run.kind_final h0 hd ho) ho hr (by simp [hp])
    exact ⟨run.own i, run.ownMembers_own.inheritedFrom i, hfilled d hd⟩

end Run
end Assembler

open Assembler

-- Every own description with a built-in parent, the root among them: the parent is registered for
-- the kind of the child, and all members of what the name is looked up to are there. That is the
-- registered description of the kind if the name is not registered for any other kind, or if the
-- child is a species.
theorem builtIn_parents_by_name {a : Assembler} {r : Request} {m : Model}
    (h : (a.assemble r).result = .ok m) (hr : a.registry.Built) :
    (∃ name, m.root.parent = some (.builtIn name)) ∧
    ∀ i d name, m.get? i = some d → d.isOwn = true → d.parent = some (.builtIn name) →
      ∃ b p, (a.registry.table d.kind).get? name = some b ∧ a.registry.lookup name = some p ∧
        m.parentOf i = some p ∧
        (∀ k x, p.members.get? k = some x → ∃ y, d.members.get? k = some y ∧
          (y.inheritedFrom = none ∨ y = x.inheritedVia p.name)) ∧
        ((∀ kind, ((a.registry.table kind).get? name).isSome → kind = d.kind) → p = b) ∧
        (d.kind = .species → p = b) := by
  obtain ⟨run⟩ := exists_run h
  refine ⟨run.root_final.2.2.2, ?_⟩
  intro i d n hd ho hp
  have hb := run.table_of_builtIn hr hd ho hp
  obtain ⟨b, hb⟩ := Option.isSome_iff_exists.mp hb
  obtain ⟨p, hl⟩ := Option.isSome_iff_exists.mp
    (Registry.isSome_lookup_of_table (Option.isSome_of_eq_some hb))
  have hpar : m.parentOf i = some p := by
    simp [parentOf, hd, hp, resolve, run.registry_final, hl]
  obtain ⟨own, hown, hm⟩ := run.exists_own_of_builtIn hr hd ho hp
  refine ⟨b, p, hb, hl, hpar, ?members, ?alone, ?species⟩
  case members =>
    intro k x hx
    rw [hm, hpar, get?_mergedWith (hr.keyed hl), hx]
    cases hk : own.get? k
    case none => exact ⟨_, rfl, .inr rfl⟩
    case some y => exact ⟨y, rfl, .inl (hown k y hk)⟩
  case alone =>
    intro halone
    exact Option.some.inj (hl.symm.trans (Registry.lookup_of_alone hb halone))
  case species =>
    intro hk
    rw [hk] at hb
    exact Option.some.inj (hl.symm.trans (Registry.lookup_of_species hb))

-- People who are asked to sit for others.
def sitter : Description :=
  { Description.builtIn .species .species Keyword.model with
    members := .ofList [(⟨.var, "height"⟩, { role := .var, name := "height" })] }

-- A registry in which they go by the name of the root model.
def fashionRegistry : Registry :=
  { Registry.defaults with
    species := Registry.defaults.species.insert Keyword.model (sitter.mergedWith Registry.agent) }

theorem built_fashionRegistry : fashionRegistry.Built := by
  have hkeyed : sitter.Keyed := by
    apply OrderedMap.keyedBy_ofList
    intro e he
    exact List.mem_singleton.mp he ▸ rfl
  exact .addSpecies .defaults hkeyed rfl

def atelierRequest : Request where
  primary := "atelier"
  trees := [{
    kind := .model
    name := some "atelier"
    children := [{ kind := .species, name := some "muse",
                   facets := .ofList [(Keyword.parent, Keyword.model)] }] }]

theorem builtIn_parents_by_name_in_atelier : ∃ m d b,
    (({ registry := fashionRegistry } : Assembler).assemble atelierRequest).result = .ok m ∧
    m.get? 1 = some d ∧ d.parent = some (.builtIn Keyword.model) ∧
    fashionRegistry.species.get? Keyword.model = some b ∧ m.parentOf 1 = some b ∧
    ∀ k x, b.members.get? k = some x → (d.members.get? k).isSome := by
  let a : Assembler := { registry := fashionRegistry }
  have ⟨m, h⟩ := Outcome.exists_of_isOk (x := a.assemble atelierRequest) (by rfl)
  have look (i : Nat) : (a.assemble atelierRequest).result.toOption.bind (·.get? i) = m.get? i := by
    rw [h]
    rfl
  have ⟨d, hd, hk, ho, hp⟩ : ∃ d, m.get? 1 = some d ∧ d.kind = .species ∧ d.isOwn = true ∧
      d.parent = some (.builtIn Keyword.model) := by
    rw [← look]
    exact ⟨_, rfl, rfl, rfl, rfl⟩
  have ⟨_, hall⟩ := builtIn_parents_by_name h built_fashionRegistry
  have ⟨b, p, hb, _, hpar, hmembers, _, hspecies⟩ := hall 1 d Keyword.model hd ho hp
  cases hspecies hk
  refine ⟨m, d, b, h, hd, hp, by rw [hk] at hb; exact hb, hpar, fun k x hx => ?_⟩
  have ⟨y, hy, _⟩ := hmembers k x hx
  simp [hy]

-- The root extends the root model, and has none of its members.
theorem root_misses_members_in_atelier : fashionRegistry.Built ∧ ∃ m b,
    (({ registry := fashionRegistry } : Assembler).assemble atelierRequest).result = .ok m ∧
    m.root.parent = some (.builtIn Keyword.model) ∧
    fashionRegistry.models.get? Keyword.model = some b ∧ m.parentOf rootIndex ≠ some b ∧
    (b.members.get? ⟨.var, "cycle"⟩).isSome ∧ m.root.members.get? ⟨.var, "cycle"⟩ = none := by
  let a : Assembler := { registry := fashionRegistry }
  have ⟨m, h⟩ := Outcome.exists_of_isOk (x := a.assemble atelierRequest) (by rfl)
  have look {α : Type} (f : Model → α) :
      (a.assemble atelierRequest).result.toOption.map f = some (f m) := by
    rw [h]
    rfl
  refine ⟨built_fashionRegistry, m, Registry.rootModel, h, ?_, rfl, ?_, by decide +kernel, ?_⟩
  case refine_1 =>
    apply Option.some.inj
    rw [← look (·.root.parent)]
    rfl
  case refine_2 =>
    intro hpar
    have hkind := look fun m => (m.parentOf rootIndex).map (·.kind)
    rw [hpar] at hkind
    exact absurd hkind (by decide +kernel)
  case refine_3 =>
    apply Option.some.inj
    rw [← look (·.root.members.get? ⟨.var, "cycle"⟩)]
    rfl

end ModelAssembly
