import ModelAssembly.Proofs.Merging
import ModelAssembly.Proofs.Outcome
/-!
Registries as they can be built: the default one, and what comes of adding species and models.

Main statements: `Built.agent`, `Built.experiment` and `Built.rootModel` find the generic
descriptions in each such registry; `Built.keyed` says that members go by their own keys;
`addSpecies_eq_ok_iff` and `addModel_eq_ok_iff` say what adding comes to; `lookup_of_alone` tells
when looking a name up comes to the table of a kind.
-/

namespace ModelAssembly.Registry

-- The registered descriptions of a kind.
def table (r : Registry) : DescriptionKind → OrderedMap String Description
  | .species => r.species
  | .experiment => r.experiments
  | .model => r.models

inductive Built : Registry → Prop
  | defaults : Built .defaults
  | addSpecies {r r' : Registry} {d : Description} : Built r → d.Keyed → r.addSpecies d = .ok r' →
    Built r'
  | addModel {r r' : Registry} {d : Description} : Built r → d.Keyed → r.addModel d = .ok r' →
    Built r'

variable {r r' : Registry} {d : Description} {name : String}

-- The name of the species that `d` extends when it is added.
def extendedSpecies (d : Description) : String :=
  match d.parent with
  | some (.builtIn name) => name
  | _ => Keyword.agent

-- What is made of `d` with the members of another, which are refused if `d` is closed.
theorem flatten_eq_ok_iff {p : Option Description} {set : Description → Registry} :
    ((p.elim (.ok d) fun p => d.inheritMembers p.name p.members.values) >>= fun d => .ok (set d)) =
      .ok r' ↔ (d.isFinalized = false ∨ p = none) ∧ r' = set (d.mergedWith p) := by
  have hflat (d' : Description) :
      (p.elim (.ok d) fun p => d.inheritMembers p.name p.members.values) = .ok d' ↔
        (d.isFinalized = false ∨ p = none) ∧ d.mergedWith p = d' := by
    cases p
    case none => simp [Description.mergedWith]
    case some p =>
      rw [Option.elim_some, Description.inheritMembers_eq_ok_iff]
      simp only [reduceCtorEq, or_false]
  simp only [bind_eq_ok_iff, hflat, Except.ok.injEq]
  constructor
  case mp =>
    rintro ⟨_, ⟨hopen, rfl⟩, rfl⟩
    exact ⟨hopen, rfl⟩
  case mpr =>
    rintro ⟨hopen, rfl⟩
    exact ⟨_, ⟨hopen, rfl⟩, rfl⟩

-- Adding a species sets one entry, made of `d` and of the members of the species that it extends,
-- if there is one.
theorem addSpecies_eq_ok_iff : r.addSpecies d = .ok r' ↔
    (d.isFinalized = false ∨ r.species.get? (extendedSpecies d) = none) ∧
      r' = { r with
        species := r.species.insert d.name (d.mergedWith (r.species.get? (extendedSpecies d))) } := by
  have hadd : r.addSpecies d = (r.species.get? (extendedSpecies d)).elim (.ok d) (fun p =>
      d.inheritMembers p.name p.members.values) >>= fun d =>
        .ok { r with species := r.species.insert d.name d } := by
    rw [addSpecies, extendedSpecies]
    cases r.species.get? _ <;> rfl
  rw [hadd, flatten_eq_ok_iff, Description.name_mergedWith]

-- The members that a model gets are those of the root model.
theorem addModel_eq_ok_iff : r.addModel d = .ok r' ↔
    (d.isFinalized = false ∨ r.models.get? Keyword.model = none) ∧
      r' = { r with
        models := r.models.insert d.name (d.mergedWith (r.models.get? Keyword.model)) } := by
  have hadd : r.addModel d = (r.models.get? Keyword.model).elim (.ok d) (fun p =>
      d.inheritMembers p.name p.members.values) >>= fun d =>
        .ok { r with models := r.models.insert d.name d } := by
    rw [addModel]
    cases r.models.get? _ <;> rfl
  rw [hadd, flatten_eq_ok_iff, Description.name_mergedWith]

theorem addSpecies_eq_ok (h : r.addSpecies d = .ok r') :
    ∃ p, r' = { r with species := r.species.insert d.name (d.mergedWith p) } :=
  ⟨_, (addSpecies_eq_ok_iff.mp h).2⟩

theorem addModel_eq_ok (h : r.addModel d = .ok r') :
    ∃ p, r' = { r with models := r.models.insert d.name (d.mergedWith p) } :=
  ⟨_, (addModel_eq_ok_iff.mp h).2⟩

theorem isSome_insert {α : Type} {m : OrderedMap String α} {k : String} {v : α}
    (h : (m.get? name).isSome) : ((m.insert k v).get? name).isSome := by
  rw [OrderedMap.get?_insert]
  split
  case isTrue => rfl
  case isFalse => exact h

-- What is looked up stands in one of the tables.
theorem exists_table_of_lookup (h : r.lookup name = some d) :
    ∃ kind, (r.table kind).get? name = some d := by
  simp only [lookup, Option.or_eq_some_iff] at h
  rcases h with h | ⟨_, h | ⟨_, h⟩⟩
  · exact ⟨.species, h⟩
  · exact ⟨.experiment, h⟩
  · exact ⟨.model, h⟩

theorem isSome_lookup_of_table {kind : DescriptionKind} (h : ((r.table kind).get? name).isSome) :
    (r.lookup name).isSome := by
  cases kind <;> simp_all [lookup, table]

namespace Built

theorem agent (h : r.Built) : (r.species.get? Keyword.agent).isSome := by
  induction h
  case defaults => rfl
  case addSpecies hd ha hi =>
    have ⟨p, he⟩ := addSpecies_eq_ok ha
    exact he ▸ isSome_insert hi
  case addModel hd ha hi =>
    have ⟨p, he⟩ := addModel_eq_ok ha
    exact he ▸ hi

theorem experiment (h : r.Built) : (r.experiments.get? Keyword.experiment).isSome := by
  induction h
  case defaults => rfl
  case addSpecies hd ha hi =>
    have ⟨p, he⟩ := addSpecies_eq_ok ha
    exact he ▸ hi
  case addModel hd ha hi =>
    have ⟨p, he⟩ := addModel_eq_ok ha
    exact he ▸ hi

theorem rootModel (h : r.Built) : (r.models.get? Keyword.model).isSome := by
  induction h
  case defaults => rfl
  case addSpecies hd ha hi =>
    have ⟨p, he⟩ := addSpecies_eq_ok ha
    exact he ▸ hi
  case addModel hd ha hi =>
    have ⟨p, he⟩ := addModel_eq_ok ha
    exact he ▸ isSome_insert hi

-- All tables hold descriptions whose members go by their own keys.
theorem keyed_tables (h : r.Built) :
    (∀ name d, r.species.get? name = some d → d.Keyed) ∧
    (∀ name d, r.experiments.get? name = some d → d.Keyed) ∧
    ∀ name d, r.models.get? name = some d → d.Keyed := by
  have hin (m : OrderedMap String Description) (k : String) (d : Description)
      (hm : ∀ name d, m.get? name = some d → d.Keyed) (hd : d.Keyed) (name : String)
      (e : Description) (he : (m.insert k d).get? name = some e) : e.Keyed := by
    rw [OrderedMap.get?_insert] at he
    split at he
    case isTrue => exact Option.some.inj he ▸ hd
    case isFalse => exact hm name e he
  have hms (ms : List Member) :
      (OrderedMap.ofList (ms.map fun m => (m.key, m))).KeyedBy Member.key := by
    apply OrderedMap.keyedBy_ofList
    intro e he
    obtain ⟨m, _, hm⟩ := List.mem_map.mp he
    exact hm ▸ rfl
  induction h
  case defaults =>
    have hroot : Registry.rootModel.Keyed :=
      (Description.keyed_inheritable _ _ _).merge (hms _)
    exact ⟨hin ∅ _ _ (by simp) (hms _), hin ∅ _ _ (by simp) (hms _), hin ∅ _ _ (by simp) hroot⟩
  case addSpecies hd ha hi =>
    obtain ⟨p, he⟩ := addSpecies_eq_ok ha
    exact he ▸ ⟨hin _ _ _ hi.1 (hd.mergedWith p), hi.2⟩
  case addModel hd ha hi =>
    obtain ⟨p, he⟩ := addModel_eq_ok ha
    exact he ▸ ⟨hi.1, hi.2.1, hin _ _ _ hi.2.2 (hd.mergedWith p)⟩

theorem keyed_of_table {kind : DescriptionKind} (h : r.Built)
    (ht : (r.table kind).get? name = some d) : d.Keyed := by
  have ⟨hspecies, hexperiments, hmodels⟩ := h.keyed_tables
  cases kind
  case species => exact hspecies name d ht
  case experiment => exact hexperiments name d ht
  case model => exact hmodels name d ht

theorem keyed (h : r.Built) (hl : r.lookup name = some d) : d.Keyed := by
  have ⟨_, ht⟩ := exists_table_of_lookup hl
  exact h.keyed_of_table ht

end Built

theorem lookup_of_species (h : r.species.get? name = some d) : r.lookup name = some d := by
  simp [lookup, h]

-- A name that is registered for one kind only is looked up in the table of that kind.
theorem lookup_of_alone {kind : DescriptionKind} (h : (r.table kind).get? name = some d)
    (ho : ∀ other, ((r.table other).get? name).isSome → other = kind) :
    r.lookup name = some d := by
  have hno (other : DescriptionKind) (hne : other ≠ kind) : (r.table other).get? name = none :=
    Option.not_isSome_iff_eq_none.mp fun hs => hne (ho other hs)
  cases kind
  case species => exact lookup_of_species h
  case experiment =>
    have hs := hno .species (by decide)
    simp_all [lookup, table]
  case model =>
    have hs := hno .species (by decide)
    have hx := hno .experiment (by decide)
    simp_all [lookup, table]

end ModelAssembly.Registry
