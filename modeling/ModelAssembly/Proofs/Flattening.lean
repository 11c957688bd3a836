import ModelAssembly.Proofs.Lineage
import ModelAssembly.Proofs.Registry
/-!
Flattening: with what members built-in descriptions are stored. A registry is built by additions,
each of which merges one registered description into the new one. What that one has was itself
stored with all that it extends, so that members come down the whole lineage of a built-in
description, as it was when that was added. Species are merged with the species that they declare as
their parent, models with the root model, whatever they declare.

Main statements: `Registry.records_addAll`, for every sequence of additions;
`Description.Flattened.get?_mergedWith`, for what inherits from a stored description;
`Registry.consistent_addAll`, for the names that members give as their sources; `additions_flatten`,
for the parents that are declared.
-/

namespace ModelAssembly

inductive Addition where
  | species (d : Description)
  | model (d : Description)

namespace Addition

def description : Addition → Description
  | species d | model d => d

def kind : Addition → DescriptionKind
  | species _ => .species
  | model _ => .model

-- The name of the registered description of that kind that is merged into the new one.
def base : Addition → String
  | species d => Registry.extendedSpecies d
  | model _ => Keyword.model

end Addition

def Registry.add (r : Registry) : Addition → Except ModelError Registry
  | .species d => r.addSpecies d
  | .model d => r.addModel d

def Registry.addAll (r : Registry) (as : List Addition) : Except ModelError Registry :=
  as.foldlM add r

-- What was added under a name and all that it extends, the nearest first, by what was added so far,
-- the latest first.
def lineage (kind : DescriptionKind) : List Addition → String → List Description
  | [], name => ((Registry.defaults.table kind).get? name).toList
  | a :: earlier, name =>
    if a.kind = kind ∧ a.description.name = name then a.description :: lineage kind earlier a.base
    else lineage kind earlier name

namespace Description

variable {k : MemberKey} {b c d s : Description} {ds : List Description}

-- The member that the first of several descriptions has, or else the copy of the one that the
-- nearest behind it has.
def nearest (k : MemberKey) : List Description → Option Member
  | [] => none
  | d :: ds => (d.members.get? k).or
      (ds.findSome? fun b => (b.members.get? k).map (·.inheritedVia b.name))

-- Copies that come down once more stay what they are.
theorem map_inheritedVia_findSome? (name : String) (ds : List Description) :
    (ds.findSome? fun b => (b.members.get? k).map (·.inheritedVia b.name)).map
      (·.inheritedVia name) =
        ds.findSome? fun b => (b.members.get? k).map (·.inheritedVia b.name) := by
  induction ds
  case nil => rfl
  case cons b ds hi =>
    rw [List.findSome?_cons]
    cases b.members.get? k
    case none => exact hi
    case some x => simp

theorem nearest_cons_cons :
    nearest k (d :: b :: ds) =
      (d.members.get? k).or ((nearest k (b :: ds)).map (·.inheritedVia b.name)) := by
  rw [nearest, nearest, List.findSome?_cons, Option.map_or, map_inheritedVia_findSome?]
  cases b.members.get? k <;> rfl

-- `s` is the first of several descriptions with the members of all of them.
structure Flattened (s : Description) (ds : List Description) : Prop where
  declared : ∃ d, ds.head? = some d ∧ s = { d with members := s.members }
  keyed : s.Keyed
  members : ∀ k, s.members.get? k = nearest k ds

namespace Flattened

theorem single (h : d.Keyed) : d.Flattened [d] where
  declared := ⟨d, rfl, rfl⟩
  keyed := h
  members k := by simp [nearest]

-- One merge brings the members of all of `ds`.
theorem get?_mergedWith (h : s.Flattened ds) (c : Description) (k : MemberKey) :
    (c.mergedWith (some s)).members.get? k = nearest k (c :: ds) := by
  have ⟨d, hd, hs⟩ := h.declared
  obtain ⟨ds, rfl⟩ := List.head?_eq_some_iff.mp hd
  have hname : s.name = d.name := congrArg (·.name) hs
  rw [Description.get?_mergedWith h.keyed, nearest_cons_cons, h.members, hname]

theorem mergedWith (h : s.Flattened ds) (hc : c.Keyed) :
    (c.mergedWith (some s)).Flattened (c :: ds) where
  declared := ⟨c, rfl, rfl⟩
  keyed := hc.mergedWith _
  members := h.get?_mergedWith c

end Flattened
end Description

namespace Registry

variable {r r' : Registry} {a : Addition} {as history : List Addition} {kind : DescriptionKind}
  {name : String} {k : MemberKey} {d s : Description}

-- Adding sets one entry in the table of one kind.
theorem get?_add (h : r.add a = .ok r') (kind : DescriptionKind) (name : String) :
    (r'.table kind).get? name =
      if a.kind = kind ∧ a.description.name = name then
        some (a.description.mergedWith ((r.table kind).get? a.base))
      else (r.table kind).get? name := by
  cases a
  case species d =>
    obtain ⟨_, he⟩ := addSpecies_eq_ok_iff.mp h
    cases kind <;> simp [he, table, Addition.kind, Addition.description, Addition.base,
      OrderedMap.get?_insert]
  case model d =>
    obtain ⟨_, he⟩ := addModel_eq_ok_iff.mp h
    cases kind <;> simp [he, table, Addition.kind, Addition.description, Addition.base,
      OrderedMap.get?_insert]

theorem add_of_open (r : Registry) (h : a.description.isFinalized = false) :
    ∃ r', r.add a = .ok r' := by
  cases a
  case species d => exact ⟨_, addSpecies_eq_ok_iff.mpr ⟨.inl h, rfl⟩⟩
  case model d => exact ⟨_, addModel_eq_ok_iff.mpr ⟨.inl h, rfl⟩⟩

-- Each registered description has the members of its lineage, and there is one where there is a
-- lineage.
structure Records (r : Registry) (history : List Addition) : Prop where
  built : r.Built
  flattened : ∀ kind name s, (r.table kind).get? name = some s →
    s.name = name ∧ s.Flattened (lineage kind history name)
  unknown : ∀ kind name, (r.table kind).get? name = none → lineage kind history name = []

theorem records_defaults : defaults.Records [] where
  built := .defaults
  flattened kind name s hs := by
    have hkeyed : s.Keyed := Built.defaults.keyed_of_table hs
    obtain ⟨d, htable⟩ : ∃ d : Description,
        defaults.table kind = (∅ : OrderedMap String Description).insert d.name d := by
      cases kind <;> exact ⟨_, rfl⟩
    rw [lineage, hs]
    refine ⟨?_, .single hkeyed⟩
    rw [htable, OrderedMap.get?_insert, OrderedMap.get?_empty] at hs
    split at hs
    case isTrue hname => exact Option.some.inj hs ▸ hname
    case isFalse => cases hs
  unknown kind name hs := by rw [lineage, hs]; rfl

-- What is made of an addition has the members of its own lineage.
theorem Records.flattened_mergedWith (h : r.Records history) (hd : d.Keyed) (kind : DescriptionKind)
    (base : String) :
    (d.mergedWith ((r.table kind).get? base)).Flattened (d :: lineage kind history base) := by
  cases hb : (r.table kind).get? base
  case none =>
    rw [h.unknown kind base hb]
    exact .single hd
  case some b => exact (h.flattened kind base b hb).2.mergedWith hd

theorem Records.add (h : r.Records history) (ha : a.description.Keyed) (hr : r.add a = .ok r') :
    r'.Records (a :: history) := by
  constructor
  case built =>
    cases a
    case species => exact .addSpecies h.built ha hr
    case model => exact .addModel h.built ha hr
  case flattened =>
    intro kind name s hs
    rw [get?_add hr] at hs
    rw [lineage]
    split at hs
    case isTrue hname =>
      cases hs
      rw [if_pos hname, Description.name_mergedWith]
      exact ⟨hname.2, h.flattened_mergedWith ha _ _⟩
    case isFalse hname =>
      rw [if_neg hname]
      exact h.flattened kind name s hs
  case unknown =>
    intro kind name hn
    rw [get?_add hr] at hn
    rw [lineage]
    split at hn
    case isTrue => cases hn
    case isFalse hname =>
      rw [if_neg hname]
      exact h.unknown kind name hn

theorem addAll_concat : r.addAll (as ++ [a]) = .ok r' ↔
    ∃ r₀, r.addAll as = .ok r₀ ∧ r₀.add a = .ok r' := by
  simp only [addAll, List.foldlM_append, List.foldlM_cons, List.foldlM_nil, bind_pure,
    bind_eq_ok_iff]

theorem records_addAll (h : defaults.addAll as = .ok r) (hkeyed : ∀ a ∈ as, a.description.Keyed) :
    r.Records as.reverse := by
  induction as using List.reverseRecOn generalizing r
  case nil => exact Except.ok.inj h ▸ records_defaults
  case append_singleton as a hi =>
    have ⟨r₀, hr₀, hr⟩ := addAll_concat.mp h
    have hrecords := hi hr₀ fun b hb => hkeyed b (List.mem_append_left _ hb)
    rw [List.reverse_concat]
    exact hrecords.add (hkeyed a (List.mem_append_right _ (List.mem_singleton_self a))) hr

-- The names that registered descriptions give as the sources of their members are registered.
def Consistent (r : Registry) : Prop :=
  ∀ kind name s k x, (r.table kind).get? name = some s → s.members.get? k = some x →
    (r.lookup (x.inheritedFrom.getD s.name)).isSome

theorem consistent_defaults : defaults.Consistent := by
  have hall (kind : DescriptionKind) : ∀ s ∈ (defaults.table kind).values,
      ∀ x ∈ s.members.values, (defaults.lookup (x.inheritedFrom.getD s.name)).isSome := by
    cases kind <;> decide +kernel
  intro kind name s k x hs hx
  exact hall kind s (OrderedMap.mem_values_iff.mpr ⟨name, hs⟩) x
    (OrderedMap.mem_values_iff.mpr ⟨k, hx⟩)

theorem isSome_lookup_add (h : r.add a = .ok r') (hn : (r.lookup name).isSome) :
    (r'.lookup name).isSome := by
  have ⟨_, hn⟩ := Option.isSome_iff_exists.mp hn
  have ⟨kind, ht⟩ := exists_table_of_lookup hn
  have ht' : ((r'.table kind).get? name).isSome := by
    rw [get?_add h]
    split
    case isTrue => rfl
    case isFalse => exact Option.isSome_of_eq_some ht
  exact isSome_lookup_of_table ht'

theorem Consistent.add (hc : r.Consistent) (hb : r.Built)
    (ha : ∀ k x, a.description.members.get? k = some x → x.inheritedFrom = none)
    (h : r.add a = .ok r') : r'.Consistent := by
  intro kind name s k x hs hx
  have hadded := get?_add h kind name
  rw [hs] at hadded
  split at hadded
  case isFalse => exact isSome_lookup_add h (hc kind name s k x hadded.symm hx)
  case isTrue hname =>
    have hregistered : (r'.lookup name).isSome :=
      isSome_lookup_of_table (Option.isSome_of_eq_some hs)
    cases Option.some.inj hadded
    have hown (hx : a.description.members.get? k = some x) :
        (r'.lookup (x.inheritedFrom.getD a.description.name)).isSome := by
      rw [ha k x hx, Option.getD_none, hname.2]
      exact hregistered
    rw [Description.name_mergedWith]
    cases hp : (r.table kind).get? a.base
    case none =>
      rw [hp] at hx
      exact hown hx
    case some p =>
      rw [hp, Description.get?_mergedWith (hb.keyed_of_table hp), Option.or_eq_some_iff] at hx
      cases hx
      case inl hx => exact hown hx
      case inr hx =>
        obtain ⟨y, hy, hcopy⟩ := Option.map_eq_some_iff.mp hx.2
        exact hcopy ▸ isSome_lookup_add h (hc kind _ p k y hp hy)

theorem consistent_addAll (h : defaults.addAll as = .ok r)
    (hkeyed : ∀ a ∈ as, a.description.Keyed)
    (hown : ∀ a ∈ as, ∀ k x, a.description.members.get? k = some x → x.inheritedFrom = none) :
    r.Consistent := by
  induction as using List.reverseRecOn generalizing r
  case nil => exact Except.ok.inj h ▸ consistent_defaults
  case append_singleton as a hi =>
    have ⟨r₀, hr₀, hr⟩ := addAll_concat.mp h
    have hkeyed₀ (b) (hb : b ∈ as) := hkeyed b (List.mem_append_left _ hb)
    have hconsistent := hi hr₀ hkeyed₀ fun b hb => hown b (List.mem_append_left _ hb)
    exact hconsistent.add (records_addAll hr₀ hkeyed₀).built (hown a (by simp)) hr

end Registry

-- The descriptions that are registered have the members of their lineages, so that one merge brings
-- all of them. A species that is added gets the members of the parent that it declares, if that is
-- registered by then. A model gets those of the root model, so that it has one for each key of
-- another parent that it declares only as far as it has them itself or the root model does.
theorem additions_flatten {as : List Addition} {r : Registry}
    (h : Registry.defaults.addAll as = .ok r) (hkeyed : ∀ a ∈ as, a.description.Keyed) :
    (∀ kind name s, (r.table kind).get? name = some s →
      s.Flattened (lineage kind as.reverse name) ∧
      ∀ c k, (Description.mergedWith c (some s)).members.get? k =
        Description.nearest k (c :: lineage kind as.reverse name)) ∧
    (∀ d : Description, d.isFinalized = false → d.Keyed → ∃ r' s, r.addSpecies d = .ok r' ∧
      r'.species.get? d.name = some s ∧
      s.Flattened (d :: lineage .species as.reverse (Registry.extendedSpecies d)) ∧
      ∀ parent b, d.parent = some (.builtIn parent) → r.species.get? parent = some b →
        ∀ k, s.members.get? k =
          (d.members.get? k).or ((b.members.get? k).map (·.inheritedVia parent))) ∧
    ∀ d : Description, d.isFinalized = false → d.Keyed → ∃ r' s root, r.addModel d = .ok r' ∧
      r'.models.get? d.name = some s ∧ r.models.get? Keyword.model = some root ∧
      s.Flattened (d :: lineage .model as.reverse Keyword.model) ∧
      (∀ k, s.members.get? k =
        (d.members.get? k).or ((root.members.get? k).map (·.inheritedVia Keyword.model))) ∧
      ∀ parent b, d.parent = some (.builtIn parent) → r.models.get? parent = some b →
        ((∀ k, b.hasMember k → s.hasMember k) ↔
          ∀ k, b.hasMember k → d.hasMember k ∨ root.hasMember k) := by
  have hrecords := Registry.records_addAll h hkeyed
  refine ⟨?stored, ?species, ?models⟩
  case stored =>
    intro kind name s hs
    have hflat := (hrecords.flattened kind name s hs).2
    exact ⟨hflat, hflat.get?_mergedWith⟩
  case species =>
    intro d hopen hd
    have ⟨r', hr'⟩ := r.add_of_open (a := .species d) hopen
    have hs := Registry.get?_add hr' .species d.name
    rw [if_pos ⟨rfl, rfl⟩] at hs
    refine ⟨r', _, hr', hs, hrecords.flattened_mergedWith hd .species _, ?_⟩
    intro parent b hp hb k
    obtain ⟨hname, hflat⟩ := hrecords.flattened .species parent b hb
    have hbase : (Addition.species d).base = parent := by
      rw [Addition.base, Registry.extendedSpecies, hp]
    have hb : (r.table .species).get? (Addition.species d).base = some b := hbase ▸ hb
    rw [hb, Addition.description, Description.get?_mergedWith hflat.keyed, hname]
  case models =>
    intro d hopen hd
    obtain ⟨r', hr'⟩ := r.add_of_open (a := .model d) hopen
    have hs := Registry.get?_add hr' .model d.name
    rw [if_pos ⟨rfl, rfl⟩] at hs
    obtain ⟨root, hroot⟩ := Option.isSome_iff_exists.mp hrecords.built.rootModel
    obtain ⟨hname, hflat⟩ := hrecords.flattened .model Keyword.model root hroot
    have hbase : (r.table .model).get? (Addition.model d).base = some root := hroot
    have hmembers (k : MemberKey) : (d.mergedWith (some root)).members.get? k =
        (d.members.get? k).or ((root.members.get? k).map (·.inheritedVia Keyword.model)) := by
      rw [Description.get?_mergedWith hflat.keyed, hname]
    rw [hbase] at hs
    refine ⟨r', _, root, hr', hs, hroot, ?flattened, hmembers, fun _ b _ _ => ?declared⟩
    case flattened => exact hbase ▸ hrecords.flattened_mergedWith hd .model _
    case declared =>
      simp only [Addition.description, Description.hasMember_mergedWith hflat.keyed,
        Bool.or_eq_true]

-- A built-in description with a variable.
def builtInWith (kind : DescriptionKind) (declaredAs : ElementKind) (name parent var : String) :
    Description :=
  let x : Member := { role := .var, name := var }
  { Description.builtIn kind declaredAs name (some parent) with members := .ofList [(x.key, x)] }

theorem keyed_builtInWith (kind : DescriptionKind) (declaredAs : ElementKind)
    (name parent var : String) : (builtInWith kind declaredAs name parent var).Keyed :=
  OrderedMap.keyedBy_ofList fun e he => by cases List.mem_singleton.mp he; rfl

def walker : Description := builtInWith .species .species "walker" Keyword.agent "speed"

def runner : Description := builtInWith .species .species "runner" "walker" "stamina"

-- A runner has the speed of a walker, and by way of it the location of an agent.
theorem additions_flatten_for_runner : ∃ r r' s,
    Registry.defaults.addAll [.species walker] = .ok r ∧ r.addSpecies runner = .ok r' ∧
      r'.species.get? "runner" = some s ∧
      (s.members.get? ⟨.var, "speed"⟩).map (·.inheritedFrom) = some (some "walker") ∧
      (s.members.get? ⟨.var, "location"⟩).map (·.inheritedFrom) = some (some Keyword.agent) := by
  have ⟨r, hr⟩ := Registry.defaults.add_of_open (a := .species walker) rfl
  have hall : Registry.defaults.addAll [.species walker] = .ok r := by
    rw [Registry.addAll, List.foldlM_cons, hr]
    rfl
  have hwalker : walker.Keyed := keyed_builtInWith _ _ _ _ _
  have hrunner : runner.Keyed := keyed_builtInWith _ _ _ _ _
  have ⟨_, hspecies, _⟩ := additions_flatten hall fun a ha =>
    List.mem_singleton.mp ha ▸ hwalker
  have ⟨r', s, hr', hs, hflat, _⟩ := hspecies runner rfl hrunner
  refine ⟨r, r', s, hall, hr', hs, ?_, ?_⟩
  case refine_1 =>
    rw [hflat.members]
    decide +kernel
  case refine_2 =>
    rw [hflat.members]
    decide +kernel

def physicalWorld : Description :=
  builtInWith .model .model "physical_world" Keyword.model "gravity"

def chemicalWorld : Description :=
  builtInWith .model .model "chemical_world" "physical_world" "valence"

-- The chemical world declares the physical world as its parent, but does not get its gravity.
theorem gravity_left_out :
    (Registry.defaults.addAll [.model physicalWorld, .model chemicalWorld]).toOption.map (fun r =>
      ((r.models.get? "physical_world").map (·.hasMember ⟨.var, "gravity"⟩),
        (r.models.get? "chemical_world").map fun d =>
          (d.parent, d.hasMember ⟨.var, "gravity"⟩, d.hasMember ⟨.var, "cycle"⟩))) =
      some (some true, some (some (.builtIn "physical_world"), false, true)) := by
  decide +kernel

end ModelAssembly
