import ModelAssembly.Proofs.Instantiation
import ModelAssembly.Proofs.Lineage
/-!
Inheritance: which members the species and experiments of an assembled model have. Each is merged
with its parent once, after the parent was, so that all that is written along its lineage comes down
to it.

Main statement: `nearest_ancestor_prevails`.
-/

namespace ModelAssembly

namespace Assembler

open Declarations Model Description

variable {a : Assembler} {r : Request} {m : Model}

namespace Run

variable (run : Run a r m) {kind : DescriptionKind} {i j : Nat} {species experiments : List Nat}
  {path : List Nat} {name : String}

-- The members that are written for a description, each in the place where its key comes first.
def own (i : Nat) : OrderedMap MemberKey Member :=
  .ofList ((run.ownMembers i).map fun x => (x.key, x))

theorem ownMembers_own : OwnMembers run.own where
  keyed i := by
    apply OrderedMap.keyedBy_ofList
    intro e he
    have ⟨x, _, hx⟩ := List.mem_map.mp he
    exact hx ▸ rfl
  inheritedFrom i k x hx := by
    have ⟨y, hy, he⟩ := List.mem_map.mp (OrderedMap.mem_of_get?_ofList hx)
    cases he
    unfold Linking.ownMembers at hy
    cases hp : (placed run.declared)[i - run.base]?
    case none => simp [hp] at hy
    case some e =>
      have hin : x ∈ Member.declaredIn e := by simpa [hp] using hy
      have ⟨z, _, hz⟩ := List.mem_filterMap.mp hin
      have ⟨_, _, he⟩ := Option.map_eq_some_iff.mp hz
      exact he ▸ rfl

-- Before anything is merged, a placed description has the members that were written for it.
theorem members_inherited {d : Description} (hi : run.base ≤ i)
    (hd : run.inherited.get? i = some d) :
    d.members = run.own i := by
  have h0 : i ≠ rootIndex := Nat.ne_of_gt (Nat.lt_of_lt_of_le run.base_pos hi)
  rw [run.get?_inherited h0, Linking.complemented, get?_mapDescriptions] at hd
  obtain ⟨e, he, hde⟩ := Option.map_eq_some_iff.mp hd
  rw [if_neg h0, if_pos hi] at hde
  have hf := (run.fresh_of_le hi he).1.members
  rw [← hde, withMembers, hf]
  rfl

-- What merging comes to for one description, seen in the model in which its kind is merged. While
-- species are merged, experiments have what was written for them.
theorem Cut.exists_filled {run : Run a r m} (hc : run.Cut species experiments) (hk : kind ≠ .model)
    (hi : run.model.isKin kind i = true) :
    ∃ (n : Model) (d d' : Description), n.registry = a.registry ∧
      (∀ j, run.model.isKin kind j = true → run.merged.get? j = n.get? j) ∧
      (kind = .species → ∀ j, run.model.isKin .experiment j = true →
        n.get? j = run.inherited.get? j) ∧
      n.get? i = some d' ∧
      d.members = run.own i ∧ d'.members = (d.mergedWith (n.parentOf i)).members := by
  have ⟨hb, _⟩ := run.placed_of_isKin hk hi
  cases kind
  case model => exact absurd rfl hk
  case species =>
    have hreg : run.speciesMerged.registry = a.registry :=
      (run.sameKin_speciesMerged hc.species_eq hc.species).registry.trans run.registry_model
    have ⟨_, _, hm⟩ := run.merged_species hc.species_eq hc.species
    have ⟨d, d', hd, hd', hl⟩ := hm i (run.mem_order hc.species hi)
    have ⟨e, he, hde⟩ := Option.map_eq_some_iff.mp (get?_cut ▸ hc.species_eq ▸ hd)
    have hdm : d.members = e.members := by
      rw [← hde]
      split <;> rfl
    exact ⟨_, d, d', hreg, fun j hj => hc.get?_merged_of_species hj,
      fun _ j hj => run.get?_speciesMerged_of_experiment hc.species_eq hc.species hj, hd',
      hdm.trans (run.members_inherited hb he), hl.members⟩
  case experiment =>
    have hreg : run.merged.registry = a.registry :=
      hc.sameKin_merged.registry.trans run.registry_model
    have ⟨_, _, hm⟩ := hc.merged_experiments
    have ⟨d, d', hd, hd', hl⟩ := hm i (run.mem_order hc.experiments hi)
    have ⟨e, he, hde⟩ := Option.map_eq_some_iff.mp (get?_cut ▸ hc.experiments_eq ▸ hd)
    have hdm : d.members = e.members := by
      rw [← hde]
      split <;> rfl
    rw [run.get?_speciesMerged_of_experiment hc.species_eq hc.species hi] at he
    exact ⟨_, d, d', hreg, fun _ _ => rfl, nofun, hd',
      hdm.trans (run.members_inherited hb he), hl.members⟩

-- A placed description whose parent is of its own kind, or built-in, is merged with what its parent
-- has in the end.
theorem filled_of_isKin (hk : kind ≠ .model) (hi : run.model.isKin kind i = true)
    (hp : ∀ j, m.Extends i j → run.model.isKin kind j = true) : m.Filled run.own i := by
  intro e he
  obtain ⟨_, _, hc⟩ := run.exists_cuts
  obtain ⟨n, d, d', hreg, hsame, _, hd', hown, hm⟩ := hc.exists_filled hk hi
  have hcome (j : Nat) (hj : run.model.isKin kind j = true) :
      ∃ x x', n.get? j = some x ∧ m.get? j = some x' ∧ Locked x x' := by
    obtain ⟨hb, hlt⟩ := run.placed_of_isKin hk hj
    have h0 : j ≠ rootIndex := Nat.ne_of_gt (Nat.lt_of_lt_of_le run.base_pos hb)
    obtain ⟨x, x', hx, hx', hl⟩ := run.get?_of_lt h0 hlt
    exact ⟨x, x', hsame j hj ▸ hx, hx', hl⟩
  obtain ⟨x, x', hx, hx', hl⟩ := hcome i hi
  cases hd'.symm.trans hx
  cases he.symm.trans hx'
  have hparent : (m.parentOf i).map (fun y => (y.name, y.members)) =
      (n.parentOf i).map fun y => (y.name, y.members) := by
    simp only [parentOf, hx', hx, Option.bind_some, hl.refilled.parent]
    cases hlink : d'.parent
    case none => rfl
    case some link =>
      cases link
      case builtIn => simp [resolve, hreg, run.registry_final]
      case declared j =>
        have hj := hp j ⟨e, hx', hl.refilled.parent.trans hlink⟩
        obtain ⟨y, y', hy, hy', hly⟩ := hcome j hj
        simp [resolve, hy, hy', hly.members, name_of_bare hly.refilled.bare]
  rw [hl.members, hm]
  exact (members_mergedWith_congr hown.symm hparent).symm

theorem own_scheduler : run.own run.model.size = ∅ := by
  have hn : (placed run.declared)[run.model.size - run.base]? = none := by
    rw [run.size_model]
    simp
  simp only [own, Linking.ownMembers, hn]
  rfl

-- The scheduler has no members of its own.
theorem filled_scheduler (hr : a.registry.Built) (ha : a.addsScheduler r = true) :
    m.Filled run.own run.model.size := by
  intro d hd
  have ⟨_, _, hc⟩ := run.exists_cuts
  have ⟨d', hd', hs⟩ := run.get?_scheduler ha
  cases hd.symm.trans hd'
  have ⟨e, agent, he, hm, hagent⟩ := hs.members
  have ⟨p, hp⟩ := Option.isSome_iff_exists.mp hr.agent
  have hreg : run.merged.registry = a.registry :=
    hc.sameKin_merged.registry.trans run.registry_model
  have hparent : m.parentOf run.model.size = some p := by
    simp [parentOf, hd, hs.parent, resolve, run.registry_final, Registry.lookup, hp]
  rw [hm, hparent, hagent p (hreg ▸ hp), run.own_scheduler]
  exact members_mergedWith_congr he rfl

section

variable {d : Description} (hd : m.get? i = some d) (hk : d.kind ≠ .model)

include hd hk

theorem ne_rootIndex (run : Run a r m) : i ≠ rootIndex := by
  intro he
  have hroot := root_eq_iff.mpr (he ▸ hd)
  exact hk (hroot ▸ run.root_final.2.1)

variable (ho : d.isOwn = true)

include ho

-- An own species or experiment is placed, or it is the scheduler.
theorem isKin_or_scheduler :
    run.model.isKin d.kind i = true ∨
      a.addsScheduler r = true ∧ i = run.model.size ∧ run.IsScheduler d := by
  refine (run.linked_or_scheduler (run.ne_rootIndex hd hk) hd).imp_left fun ⟨e, he, hb⟩ => ?_
  exact isKin_iff.mpr ⟨e, he, (kind_of_bare hb).symm, isOwn_of_bare hb ▸ ho⟩

-- Its link leads to a placed description, or to a registered one.
theorem parent_final (hr : a.registry.Built) : ∃ link, d.parent = some link ∧
    (∀ name, link = .builtIn name → (m.registry.lookup name).isSome) ∧
    ∀ j, link = .declared j → run.base ≤ j ∧ j < run.model.size := by
  cases run.isKin_or_scheduler hd hk ho
  case inl hi =>
    have ⟨hb, hlt⟩ := run.placed_of_isKin hk hi
    have ⟨species, experiments, hc⟩ := run.exists_cuts
    have ⟨e, d', he, hd', hl⟩ := run.get?_of_lt (run.ne_rootIndex hd hk) hlt
    cases hd.symm.trans hd'
    have ⟨x, hx, hp⟩ := hc.parent_merged he
    have ⟨x', link, hx', hlink, hreg, hj⟩ :=
      run.exists_parent hr species experiments (.inr ⟨hb, hlt⟩)
    cases hx.symm.trans hx'
    exact ⟨link, hl.refilled.parent.trans (hp.trans hlink), run.registry_final ▸ hreg, hj⟩
  case inr hs =>
    refine ⟨_, hs.2.2.parent, ?_, by simp⟩
    intro name hname
    cases hname
    exact run.registry_final ▸ Registry.isSome_lookup_of_table
      (hr.base (show DescriptionKind.species ≠ .model by decide))

theorem filled_of_own (hr : a.registry.Built)
    (hp : ∀ j e, d.parent = some (.declared j) → m.get? j = some e → e.kind = d.kind) :
    m.Filled run.own i := by
  cases run.isKin_or_scheduler hd hk ho
  case inr hs => exact hs.2.1 ▸ run.filled_scheduler hr hs.1
  case inl hi =>
    apply run.filled_of_isKin hk hi
    intro j ⟨e, he, hpe⟩
    cases hd.symm.trans he
    have ⟨link, hlink, _, hplaced⟩ := run.parent_final hd hk ho hr
    have ⟨hb, hlt⟩ := hplaced j (Option.some.inj (hlink.symm.trans hpe))
    have h0 : j ≠ rootIndex := Nat.ne_of_gt (Nat.lt_of_lt_of_le run.base_pos hb)
    have ⟨x, hx⟩ := get?_of_lt_size hlt
    have ⟨y, hy, hyb⟩ := run.bare_final h0 hx
    have hyo : y.isOwn = true := (run.isOwn_final h0 hy).mpr hb
    have hxk : x.kind = d.kind := (kind_of_bare hyb).symm.trans (hp j y hpe hy)
    exact isKin_iff.mpr ⟨x, hx, hxk, isOwn_of_bare hyb ▸ hyo⟩

end

-- All along a lineage there are own descriptions that are merged with their parents, and it ends at
-- a registered one.
theorem own_of_lineage {d : Description} (hr : a.registry.Built) (hk : kind ≠ .model)
    (hl : m.Lineage kind (i :: path) name) (hd : m.get? i = some d) (ho : d.isOwn = true) :
    (∀ p ∈ i :: path, m.Filled run.own p ∧ p ≠ rootIndex ∧
      ∃ e, m.get? p = some e ∧ e.isOwn = true) ∧ (m.registry.lookup name).isSome := by
  induction path generalizing i d
  case nil =>
    have hkd : d.kind ≠ .model := hl.kind_of_get? hd ▸ hk
    have ⟨e, he, hp⟩ := hl.parent_of_singleton
    cases hd.symm.trans he
    have ⟨link, hlink, hreg, _⟩ := run.parent_final hd hkd ho hr
    have hfilled : m.Filled run.own i := by
      apply run.filled_of_own hd hkd ho hr
      intro j e hpe
      cases hp.symm.trans hpe
    refine ⟨List.forall_mem_singleton.mpr ⟨hfilled, run.ne_rootIndex hd hkd, d, hd, ho⟩, ?_⟩
    exact hreg name (Option.some.inj (hlink.symm.trans hp))
  case cons j path ih =>
    have hkd : d.kind ≠ .model := hl.kind_of_get? hd ▸ hk
    have ⟨⟨e, he, hp⟩, hl'⟩ := hl.parent_of_cons
    cases hd.symm.trans he
    have ⟨link, hlink, _, hplaced⟩ := run.parent_final hd hkd ho hr
    have ⟨hb, hlt⟩ := hplaced j (Option.some.inj (hlink.symm.trans hp))
    have h0 : j ≠ rootIndex := Nat.ne_of_gt (Nat.lt_of_lt_of_le run.base_pos hb)
    have ⟨y, hy, _⟩ := hl'.exists_head
    have ⟨hall, hreg⟩ := ih hl' hy ((run.isOwn_final h0 hy).mpr hb)
    have hfilled : m.Filled run.own i := by
      apply run.filled_of_own hd hkd ho hr
      intro j' e hpe he
      cases hp.symm.trans hpe
      exact (hl'.kind_of_get? he).trans (hl.kind_of_get? hd).symm
    exact ⟨List.forall_mem_cons.mpr ⟨⟨hfilled, run.ne_rootIndex hd hkd, d, hd, ho⟩, hall⟩, hreg⟩

theorem own_final {d : Description} (h0 : i ≠ rootIndex) (hd : m.get? i = some d)
    (ho : d.isOwn = true) :
    (∃ D owner, d.StandsFor D owner ∧ m.Describes run.declared i D ∧
      run.own i = .ofList ((Member.declaredIn D.element).map fun x => (x.key, x))) ∨
    (a.addsScheduler r = true ∧ i + 1 = m.size ∧ d.name = Keyword.scheduler ∧ run.own i = ∅) := by
  have hb := (run.isOwn_final h0 hd).mp ho
  cases run.linked_or_scheduler h0 hd
  case inl hlinked =>
    obtain ⟨_, he, _⟩ := hlinked
    obtain ⟨d', D, owner, hd', hs, hD, hplace⟩ := run.describes_final hb (lt_size_of_get? he)
    cases hd.symm.trans hd'
    exact .inl ⟨D, owner, hs, hD, by simp [own, Linking.ownMembers, hplace]⟩
  case inr hs =>
    obtain ⟨ha, hi, hsched⟩ := hs
    exact .inr ⟨ha, by simp [run.size_final, ha, hi], hsched.name, hi ▸ run.own_scheduler⟩

end Run
end Assembler

-- `own` gives the members that were written for each description. Of those along a lineage the
-- nearest counts, and members that come from farther up stand in front.
open Declarations Model in
theorem nearest_ancestor_prevails {a : Assembler} {r : Request} {m : Model}
    (h : (a.assemble r).result = .ok m) (hr : a.registry.Built) :
    ∃ own, OwnMembers own ∧
      (∀ i d, i ≠ rootIndex → m.get? i = some d → d.isOwn = true →
        (∃ D owner, d.StandsFor D owner ∧ m.Describes (ofTrees r.trees).1.all i D ∧
          own i = .ofList ((Member.declaredIn D.element).map fun x => (x.key, x))) ∨
        (a.addsScheduler r = true ∧ i + 1 = m.size ∧ d.name = Keyword.scheduler ∧ own i = ∅)) ∧
      ∀ kind i ancestors name d, kind ≠ .model → m.Lineage kind (i :: ancestors) name →
        m.get? i = some d → d.isOwn = true →
        (∀ p ∈ ancestors, p ≠ rootIndex ∧ ∃ e, m.get? p = some e ∧ e.isOwn = true) ∧
        ∃ b, m.resolve (.builtIn name) = some b ∧ d.Keyed ∧
          (∀ k, d.members.get? k = ((own i).get? k).or
            ((ancestors.findSome? fun p => ((own p).get? k).map (·.copiedFrom (m.nameOf p))).or
              ((b.members.get? k).map (·.inheritedVia b.name)))) ∧
          d.members.values =
            (b.members.values.filter (unshadowed own (i :: ancestors))).map
              (·.inheritedVia b.name) ++ m.comingDown own [i] ancestors ++ (own i).values := by
  have ⟨run⟩ := Assembler.exists_run h
  refine ⟨run.own, run.ownMembers_own, fun i d h0 hd ho => run.own_final h0 hd ho, ?_⟩
  intro kind i ancestors name d hk hl hd ho
  have ⟨hown, hreg⟩ := run.own_of_lineage hr hk hl hd ho
  have ⟨b, hb⟩ := Option.isSome_iff_exists.mp hreg
  have hkeyed : b.Keyed := hr.keyed (run.registry_final ▸ hb)
  have hfilled (p : Nat) (hp : p ∈ i :: ancestors) : m.Filled run.own p := (hown p hp).1
  exact ⟨fun p hp => (hown p (List.mem_cons_of_mem i hp)).2, b, hb,
    members_of_lineage hl run.ownMembers_own hfilled hb hkeyed hd⟩

-- A dog that redefines one of the two variables of a wolf.
def kennelRequest : Request where
  primary := "main"
  trees := [{
    kind := .model
    name := some "main"
    children := [
      { kind := .species
        name := some "dog"
        facets := .ofList [("parent", "wolf")]
        children := [{ kind := .member .var, name := some "age" }] },
      { kind := .species
        name := some "wolf"
        children := [
          { kind := .member .var, name := some "age" },
          { kind := .member .var, name := some "pack" }] }] }]

theorem nearest_ancestor_prevails_in_kennel :
    ∃ m, (({} : Assembler).assemble kennelRequest).result = .ok m ∧
    ∃ (own : Nat → OrderedMap MemberKey Member) (b d : Description), m.get? 1 = some d ∧
      m.Lineage .species [1, 2] Keyword.agent ∧
      m.resolve (.builtIn Keyword.agent) = some b ∧
      ∀ k, d.members.get? k = ((own 1).get? k).or
        ((((own 2).get? k).map (·.copiedFrom (m.nameOf 2))).or
          ((b.members.get? k).map (·.inheritedVia b.name))) := by
  have ⟨m, h⟩ := Outcome.exists_of_isOk (x := ({} : Assembler).assemble kennelRequest) (by rfl)
  have look (i : Nat) : (({} : Assembler).assemble kennelRequest).result.toOption.bind (·.get? i) =
      m.get? i := by
    rw [h]
    rfl
  have ⟨d, hd, hkind, hparent, ho⟩ : ∃ d, m.get? 1 = some d ∧ d.kind = .species ∧
      d.parent = some (.declared 2) ∧ d.isOwn = true := by
    rw [← look]
    exact ⟨_, rfl, rfl, rfl, rfl⟩
  have ⟨e, he, hkind', hparent'⟩ : ∃ e, m.get? 2 = some e ∧ e.kind = .species ∧
      e.parent = some (.builtIn Keyword.agent) := by
    rw [← look]
    exact ⟨_, rfl, rfl, rfl⟩
  have hl : m.Lineage .species [1, 2] Keyword.agent :=
    .declared hd hkind hparent (.builtIn he hkind' hparent')
  have ⟨own, _, _, hmembers⟩ := nearest_ancestor_prevails h .defaults
  have ⟨_, b, hb, _, hget, _⟩ := hmembers .species 1 [2] _ d (by decide) hl hd ho
  refine ⟨m, h, own, b, d, hd, hl, hb, fun k => (hget k).trans ?_⟩
  simp

end ModelAssembly
