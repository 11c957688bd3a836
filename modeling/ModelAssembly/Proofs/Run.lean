import ModelAssembly.Proofs.Ancestry
import ModelAssembly.Proofs.Stages
/-!
Runs of the assembler that come to a model, stage by stage, and what the stages leave of the linked
model: placed descriptions keep all but their members, their lock and the links that linearization
cuts.

Main statements: `exists_run`; `exists_cuts` for the links that were cut; `get?_of_lt`,
`get?_scheduler` and `root_final` for what the model that comes out has at an index.
-/

open Relation

namespace ModelAssembly

namespace Model

open Description

variable {m m' : Model} {kind : DescriptionKind} {i p : Nat} {cuts order : List Nat}

theorem Changed.isKin (hc : Changed Refilled m m') : m'.isKin kind i = m.isKin kind i := by
  have ⟨f, hf, hr⟩ := hc
  subst hf
  cases hd : m.get? i
  case none => simp [Model.isKin, hd]
  case some d =>
    have hb := (hr i d hd).bare
    simp [Model.isKin, hd, kind_of_bare hb, isOwn_of_bare hb]

theorem Changed.kinParent (hc : Changed Refilled m m') : m'.kinParent kind = m.kinParent kind := by
  have ⟨f, hf, hr⟩ := hc
  subst hf
  have hkind (p : Nat) : ((m.mapDescriptions f).get? p).any (fun e => e.kind = kind) =
      (m.get? p).any fun e => e.kind = kind := by
    cases he : m.get? p
    case none => simp [he]
    case some e => simp [he, kind_of_bare (hr p e he).bare]
  funext i
  simp only [Model.kinParent, hkind]
  cases hd : m.get? i
  case none => simp [hd]
  case some d =>
    have hb := (hr i d hd).bare
    have hp : (f i d).declaredParent = d.declaredParent := by
      simp only [declaredParent, (hr i d hd).parent]
    by_cases hk : d.kind = kind ∧ d.isOwn = true
    case pos => simp [hd, Option.filter, kind_of_bare hb, isOwn_of_bare hb, hk, hp]
    case neg => simp [hd, Option.filter, kind_of_bare hb, isOwn_of_bare hb, if_neg hk]

theorem sameKin_of_refilled {d d' : Description} (h : Refilled d d') :
    SameKin d d' :=
  ⟨h.bare, .inl h.parent⟩

-- Members do not matter to linearization.
theorem Changed.linearized (hc : Changed Refilled m m') (h : m'.Linearized kind cuts order) :
    m.Linearized kind cuts order := by
  have hp : m'.kinParent kind = m.kinParent kind := hc.kinParent
  have hk (i : Nat) : m'.isKin kind i = m.isKin kind i := hc.isKin
  have hw := walk_of_changed (hc.mono fun _ _ => sameKin_of_refilled) rootIndex
  exact ⟨fun i => hp ▸ hw ▸ h.cut i, hw ▸ h.sublist, h.nodup, h.orderNodup,
    fun i => hp ▸ hw ▸ hk i ▸ h.mem i, fun c p => hp ▸ hw ▸ h.before c p⟩

end Model

namespace Assembler

-- A run of the assembler that comes to the model `m`, with the models in between.
structure Run (a : Assembler) (r : Request) (m : Model) extends Linking a r where
  inherited : Model
  inherited_eq : toLinking.complemented.inherit Model.rootIndex = .ok inherited
  species : Model × List Nat
  species_eq : (inherited.linearize .species).result = .ok species
  speciesMerged : Model
  speciesMerged_eq : species.2.foldlM (·.inherit ·) species.1 = .ok speciesMerged
  experiments : Model × List Nat
  experiments_eq : (speciesMerged.linearize .experiment).result = .ok experiments
  merged : Model
  merged_eq : (experiments.2.foldlM concludeExperiment experiments.1).result = .ok merged
  scheduled : Model
  scheduled_eq :
    (if a.settings.legacyScheduling then merged.addScheduler else .ok merged) = .ok scheduled
  typed : Model
  typed_eq : scheduled.buildTypes = .ok typed
  finalized_eq : typed.finalizeAll.result = .ok (m, true)

-- Whether the assembly of `r` adds a scheduler: it is asked to, and there is something to schedule.
def addsScheduler (a : Assembler) (r : Request) : Bool :=
  a.settings.legacyScheduling &&
    Model.relocated.any (Declarations.ofTrees r.trees).1.facets.contains

variable {a : Assembler} {r : Request} {m : Model}

theorem exists_run (h : (a.assemble r).result = .ok m) : Nonempty (Run a r m) := by
  unfold assemble at h
  split at h
  case h_1 => cases h
  case h_2 primary imports ht =>
    have ⟨_, _, h⟩ := Outcome.bind_eq_ok_iff.mp h
    have ⟨_, _, h⟩ := Outcome.bind_eq_ok_iff.mp h
    have ⟨start, hs, h⟩ := Outcome.bind_eq_ok_iff.mp h
    have ⟨complemented, hp, h⟩ := Outcome.bind_eq_ok_iff.mp h
    have ⟨merged, hm, h⟩ := Outcome.bind_eq_ok_iff.mp h
    have ⟨grafted, hg, hp⟩ := Outcome.bind_eq_ok_iff.mp hp
    have ⟨placement, hpl, hp⟩ := Outcome.bind_eq_ok_iff.mp hp
    have ⟨linked, hl, hp⟩ := Outcome.bind_eq_ok_iff.mp hp
    have ⟨inherited, hi, hm⟩ := Outcome.bind_eq_ok_iff.mp hm
    have ⟨species, hsp, hm⟩ := Outcome.bind_eq_ok_iff.mp hm
    have ⟨speciesMerged, hsm, hm⟩ := Outcome.bind_eq_ok_iff.mp hm
    have ⟨experiments, hx, hm⟩ := Outcome.bind_eq_ok_iff.mp hm
    have ⟨scheduled, hsc, h⟩ := Outcome.bind_eq_ok_iff.mp h
    have ⟨typed, hty, h⟩ := Outcome.bind_eq_ok_iff.mp h
    have ⟨⟨final, passed⟩, hf, h⟩ := Outcome.bind_eq_ok_iff.mp h
    let l : Linking a r :=
      { primary, imports, trees_eq := ht, start
        start_eq := Outcome.ofModel_eq_ok_iff.mp hs
        grafted
        grafted_eq := hg
        placement
        placement_eq := hpl
        model := linked
        model_eq := Outcome.ofModel_eq_ok_iff.mp hl }
    have hc : complemented = l.complemented := Except.ok.inj (hp.symm.trans l.result_addOwnMembers)
    have hfinal : passed = true ∧ final = m := by
      cases passed
      case true => exact ⟨rfl, Except.ok.inj h⟩
      case false => cases h
    exact ⟨{
      l with
      inherited
      inherited_eq := Outcome.ofModel_eq_ok_iff.mp (hc ▸ hi)
      species
      species_eq := hsp
      speciesMerged
      speciesMerged_eq := Outcome.ofModel_eq_ok_iff.mp hsm
      experiments
      experiments_eq := hx
      merged
      merged_eq := hm
      scheduled
      scheduled_eq := Outcome.ofModel_eq_ok_iff.mp hsc
      typed
      typed_eq := Outcome.ofModel_eq_ok_iff.mp hty
      finalized_eq := hfinal.2 ▸ hfinal.1 ▸ hf }⟩

namespace Linking

variable (l : Linking a r) {kind : DescriptionKind} {cuts order : List Nat} {i j : Nat}

theorem refilled_complemented : Model.Changed Description.Refilled l.model l.complemented := by
  refine ⟨_, rfl, ?_⟩
  intro i d _
  split
  case isTrue => rfl
  case isFalse => split <;> rfl

theorem isKin_of_mem_order (hl : l.model.Linearized kind cuts order) (hi : i ∈ order) :
    l.model.isKin kind i = true :=
  (l.mem_order_iff (.refl (fun _ => ⟨rfl, .inl rfl⟩) _) hl).mp hi

theorem mem_order (hl : l.model.Linearized kind cuts order) (hi : l.model.isKin kind i = true) :
    i ∈ order :=
  (l.mem_order_iff (.refl (fun _ => ⟨rfl, .inl rfl⟩) _) hl).mpr hi

-- In the order that linearization finds, a link that is left leads back.
theorem idxOf_lt_of_extends (hk : kind ≠ .model) (hl : l.model.Linearized kind cuts order)
    (hi : i ∈ order) (hj : j ∈ order) (h : l.model.Extends i j) (hcut : i ∉ cuts) :
    order.idxOf j < order.idxOf i := by
  have hki := l.isKin_of_mem_order hl hi
  have ⟨d, hd, hkd, ho⟩ := Model.isKin_iff.mp hki
  have ⟨e, he, hke, _⟩ := Model.isKin_iff.mp (l.isKin_of_mem_order hl hj)
  have ⟨d', hd', hp⟩ := h
  cases hd.symm.trans hd'
  have ⟨hb, hlt⟩ := l.placed_of_isKin hk hki
  have hkp := Model.kinParent_eq_some_iff.mpr ⟨d, e, hd, hkd, ho, hp, he, hke⟩
  exact hl.before i j (l.mem_walk hb hlt) hkp hcut

-- `m` is the linked model with other members and locks, with some links cut and, if one is asked
-- for, with a scheduler behind it.
structure Extended (l : Linking a r) (m : Model) : Prop where
  size : m.size = l.model.size + if a.addsScheduler r then 1 else 0
  micro_root : m.root.micro = l.model.root.micro ++ if a.addsScheduler r then [l.model.size] else []
  parent_root : ∃ name, m.root.parent = some (.builtIn name)
  get? : ∀ i, i ≠ Model.rootIndex → i < l.model.size →
    ∃ d e, l.model.get? i = some d ∧ m.get? i = some e ∧ Model.SameKin d e
  scheduler : a.addsScheduler r = true → ∃ d, m.get? l.model.size = some d ∧ d.isOwn = true ∧
    d.micro = [] ∧ ∃ name, d.parent = some (.builtIn name)

namespace Extended

open Model Description

variable {l : Linking a r} (h : l.Extended m) {i : Nat} {d : Description}

include h

-- Behind the descriptions of the linked model there is only the scheduler.
theorem eq_size_of_le (hi : l.model.size ≤ i) (hd : m.get? i = some d) :
    a.addsScheduler r = true ∧ i = l.model.size := by
  have hlt := lt_size_of_get? hd
  rw [h.size] at hlt
  cases ha : a.addsScheduler r
  case false =>
    simp only [ha] at hlt
    exact absurd hlt (Nat.not_lt_of_le hi)
  case true =>
    simp only [ha, if_true] at hlt
    exact ⟨rfl, Nat.le_antisymm (Nat.le_of_lt_succ hlt) hi⟩

theorem le_size : l.model.size ≤ m.size := by
  rw [h.size]
  exact Nat.le_add_right ..

-- The own descriptions are the root and all from the first placed one on.
theorem isOwn_iff (h0 : i ≠ rootIndex) (hd : m.get? i = some d) :
    d.isOwn = true ↔ l.base ≤ i := by
  cases Nat.lt_or_ge i l.model.size
  case inl hlt =>
    have ⟨e, d', he, hd', hb, _⟩ := h.get? i h0 hlt
    cases hd.symm.trans hd'
    rw [isOwn_of_bare hb]
    exact l.isOwn_iff (Nat.pos_of_ne_zero h0) he
  case inr hge =>
    have ⟨ha, he⟩ := h.eq_size_of_le hge hd
    have ⟨d', hd', ho, _⟩ := h.scheduler ha
    cases hd.symm.trans (he ▸ hd')
    exact iff_of_true ho (l.mirrors.le.trans hge)

theorem inRange (hin : l.model.InRange) : m.InRange := by
  have hall (i : Nat) (d : Description) (hd : m.get? i = some d) :
      (∀ j ∈ d.micro, j < m.size) ∧ ∀ j, d.parent = some (.declared j) → j < m.size := by
    by_cases h0 : i = rootIndex
    case pos =>
      subst h0
      rw [← root_eq_iff.mpr hd, h.micro_root]
      refine ⟨fun j hj => ?_, fun j hj => ?_⟩
      · cases List.mem_append.mp hj
        case inl hj => exact Nat.lt_of_lt_of_le (l.lt_size_of_mem_micro_root hj) h.le_size
        case inr hj =>
          have hs := h.size
          cases ha : a.addsScheduler r
          case false => simp [ha] at hj
          case true => simp_all
      · have ⟨_, hp⟩ := h.parent_root
        cases hj.symm.trans hp
    case neg =>
      cases Nat.lt_or_ge i l.model.size
      case inl hi =>
        have ⟨e, d', he, hd', hb, hp⟩ := h.get? i h0 hi
        cases hd.symm.trans hd'
        refine ⟨fun j hj => ?_, fun j hj => ?_⟩
        · rw [micro_of_bare hb] at hj
          exact Nat.lt_of_lt_of_le (hin.micro i j (microOf_of_get? he ▸ hj)) h.le_size
        · cases hp
          case inl hp => exact Nat.lt_of_lt_of_le (hin.parent i j ⟨e, he, hp ▸ hj⟩) h.le_size
          case inr hp =>
            have ⟨_, hp⟩ := hp
            cases hj.symm.trans hp
      case inr hi =>
        have ⟨ha, he⟩ := h.eq_size_of_le hi hd
        have ⟨d', hd', _, hmicro, _, hparent⟩ := h.scheduler ha
        cases hd.symm.trans (he ▸ hd')
        exact ⟨by simp [hmicro], by simp [hparent]⟩
  constructor
  case micro =>
    intro i j hj
    have ⟨d, hd, hm⟩ := exists_of_mem_microOf hj
    exact (hall i d hd).1 j hm
  case parent => exact fun i j ⟨d, hd, hp⟩ => (hall i d hd).2 j hp

end Extended

end Linking

namespace Run

open Model Description

variable (run : Run a r m) {i j : Nat} {species experiments : List Nat}

theorem refilled_inherited : Changed Refilled run.model run.inherited :=
  run.refilled_complemented.trans (fun _ _ _ => .trans)
    (merges_of_inherit run.inherited_eq).changed

theorem get?_inherited (hi : i ≠ rootIndex) :
    run.inherited.get? i = run.complemented.get? i := by
  have ⟨d, d', hd, hs, _⟩ := merges_of_inherit run.inherited_eq
  rw [hs, get?_set hd, if_neg hi]

theorem linearizable_of_changed {kind : DescriptionKind} {n : Model} (hk : kind ≠ .model)
    (hc : Changed SameKin run.model n)
    (hopen : ∀ i d, n.get? i = some d → n.isKin kind i = true → d.isFinalized = false) :
    n.Linearizable kind := by
  have hw (i) (hi : i ∈ run.model.walk rootIndex) : i < run.model.size := by
    have hci := run.refilled_inherited
    rw [← hci.size]
    exact lt_of_mem_walk run.species_eq
      (walk_of_changed (hci.mono fun _ _ => sameKin_of_refilled) rootIndex ▸ hi)
  exact (run.linearizable hw hk).of_changed hc hopen

theorem isFinalized_inherited {d : Description} (hi : run.base ≤ i)
    (hd : run.inherited.get? i = some d) : d.isFinalized = false := by
  have hb := run.base_pos
  have h0 : ¬ i = rootIndex := Nat.ne_of_gt (Nat.lt_of_lt_of_le hb hi)
  rw [run.get?_inherited h0, Linking.complemented, get?_mapDescriptions] at hd
  obtain ⟨e, he, hde⟩ := Option.map_eq_some_iff.mp hd
  rw [if_neg h0, if_pos hi] at hde
  exact hde ▸ (run.fresh_of_le hi he).1.isFinalized

-- The links that were cut in a run.
structure Cut (run : Run a r m) (species experiments : List Nat) : Prop where
  species_eq : run.species.1 = run.inherited.cut .species species
  species : run.model.Linearized .species species run.species.2
  experiments_eq : run.experiments.1 = run.speciesMerged.cut .experiment experiments
  experiments : run.model.Linearized .experiment experiments run.experiments.2

theorem exists_species_cut : ∃ cuts, run.species.1 = run.inherited.cut .species cuts ∧
    run.model.Linearized .species cuts run.species.2 := by
  have hc := run.refilled_inherited
  have hl : run.inherited.Linearizable .species := by
    apply run.linearizable_of_changed (by decide) (hc.mono fun _ _ => sameKin_of_refilled)
    intro i d hd hk
    have ⟨hi, _⟩ := run.placed_of_isKin (by decide) (hc.isKin ▸ hk)
    exact run.isFinalized_inherited hi hd
  have ⟨cuts, order, _, he, _, hlin⟩ := linearize_eq hl
  have hs := run.species_eq
  rw [he] at hs
  have hs := Except.ok.inj hs
  exact ⟨cuts, (congrArg Prod.fst hs).symm, hs ▸ hc.linearized hlin⟩

section

variable (hs : run.species.1 = run.inherited.cut .species species)
  (hl : run.model.Linearized .species species run.species.2)

include hs hl

-- What merging members down the species comes to.
theorem merged_species : Changed Refilled run.species.1 run.speciesMerged ∧
    (∀ i, i ∉ run.species.2 → run.speciesMerged.get? i = run.species.1.get? i) ∧
    ∀ i ∈ run.species.2, ∃ d d', run.species.1.get? i = some d ∧
      run.speciesMerged.get? i = some d' ∧
      Locked (d.mergedWith (run.speciesMerged.parentOf i)) d' := by
  apply merged_of_foldlM (fun _ _ _ => merges_of_inherit) run.speciesMerged_eq hl.orderNodup
  intro i d p hi hd hp hpo
  have hext : (run.inherited.cut .species species).Extends i p := hs ▸ ⟨d, hd, hp⟩
  have ⟨hx, hcut⟩ := extends_cut.mp hext
  have ⟨e, he, hep⟩ := hx
  have ⟨e₀, he₀, hr⟩ := run.refilled_inherited.get?_rev he
  exact run.idxOf_lt_of_extends (by decide) hl hi hpo ⟨e₀, he₀, hr.parent ▸ hep⟩ hcut

theorem sameKin_speciesMerged : Changed SameKin run.model run.speciesMerged := by
  have hm := (run.merged_species hs hl).1.mono fun _ _ => sameKin_of_refilled
  have hc : Changed SameKin run.inherited run.species.1 :=
    hs ▸ changed_cut run.inherited .species species
  have hi := run.refilled_inherited.mono fun _ _ => sameKin_of_refilled
  exact (hi.trans (fun _ _ _ => .trans) hc).trans (fun _ _ _ => .trans) hm

-- Merging members down the species leaves other placed descriptions as they are.
theorem get?_speciesMerged_of_experiment (hk : run.model.isKin .experiment i = true) :
    run.speciesMerged.get? i = run.inherited.get? i := by
  have hno : i ∉ run.species.2 := by
    intro hi
    cases isKin_unique hk (run.isKin_of_mem_order hl hi)
  have hcut : i ∉ species := fun hi => by cases isKin_unique hk (hl.isKin hi)
  rw [(run.merged_species hs hl).2.1 i hno, hs, get?_cut]
  simp [hcut]

theorem exists_experiments_cut :
    ∃ cuts, run.experiments.1 = run.speciesMerged.cut .experiment cuts ∧
      run.model.Linearized .experiment cuts run.experiments.2 := by
  have hc := run.sameKin_speciesMerged hs hl
  have hm := (run.merged_species hs hl).1
  have hkin (i : Nat) (hk : run.speciesMerged.isKin .experiment i = true) :
      run.model.isKin .experiment i = true := by
    have h₁ : run.species.1.isKin .experiment i = true := hm.isKin ▸ hk
    rw [hs, isKin_cut] at h₁
    exact run.refilled_inherited.isKin ▸ h₁
  have hlin : run.speciesMerged.Linearizable .experiment := by
    apply run.linearizable_of_changed (by decide) hc
    intro i d hd hk
    have hk' := hkin i hk
    have ⟨hi, _⟩ := run.placed_of_isKin (by decide) hk'
    exact run.isFinalized_inherited hi (run.get?_speciesMerged_of_experiment hs hl hk' ▸ hd)
  have ⟨cuts, order, _, he, _, hx⟩ := linearize_eq hlin
  have hxeq := run.experiments_eq
  rw [he] at hxeq
  have hxeq := Except.ok.inj hxeq
  refine ⟨cuts, (congrArg Prod.fst hxeq).symm, hxeq ▸ ?_⟩
  -- Neither the members that were merged nor the links of species that were cut matter.
  have hin (i) (hi : i ∈ species) : run.inherited.isKin .species i = true :=
    run.refilled_inherited.isKin.trans (hl.isKin hi)
  have h₁ : (run.inherited.cut .species species).Linearized .experiment cuts order :=
    hs ▸ hm.linearized hx
  exact run.refilled_inherited.linearized (h₁.of_cut (by decide) hin)

end

theorem exists_cuts : ∃ species experiments, run.Cut species experiments := by
  have ⟨species, hs, hl⟩ := run.exists_species_cut
  have ⟨experiments, hx, hlx⟩ := run.exists_experiments_cut hs hl
  exact ⟨species, experiments, hs, hl, hx, hlx⟩

namespace Cut

variable {run} (hc : run.Cut species experiments)

include hc

theorem extends_species (h : run.species.1.Extends i j) : run.model.Extends i j ∧ i ∉ species := by
  have ⟨⟨e, he, hp⟩, hcut⟩ := extends_cut.mp (hc.species_eq ▸ h)
  have ⟨d, hd, hr⟩ := run.refilled_inherited.get?_rev he
  exact ⟨⟨d, hd, hr.parent ▸ hp⟩, hcut⟩

theorem extends_experiments (h : run.experiments.1.Extends i j) :
    run.model.Extends i j ∧ i ∉ species ∧ i ∉ experiments := by
  have ⟨⟨e, he, hp⟩, hcut⟩ := extends_cut.mp (hc.experiments_eq ▸ h)
  have ⟨d, hd, hr⟩ := (run.merged_species hc.species_eq hc.species).1.get?_rev he
  have ⟨hx, hcut'⟩ := hc.extends_species ⟨d, hd, hr.parent ▸ hp⟩
  exact ⟨hx, hcut', hcut⟩

-- What merging members down the experiments comes to.
theorem merged_experiments : Changed Refilled run.experiments.1 run.merged ∧
    (∀ i, i ∉ run.experiments.2 → run.merged.get? i = run.experiments.1.get? i) ∧
    ∀ i ∈ run.experiments.2, ∃ d d', run.experiments.1.get? i = some d ∧
      run.merged.get? i = some d' ∧ Locked (d.mergedWith (run.merged.parentOf i)) d' := by
  have h := run.merged_eq
  rw [Outcome.result_foldlM] at h
  apply merged_of_foldlM (fun _ _ _ => merges_of_concludeExperiment) h hc.experiments.orderNodup
  intro i d p hi hd hp hpo
  have ⟨hx, _, hcut⟩ := hc.extends_experiments ⟨d, hd, hp⟩
  exact run.idxOf_lt_of_extends (by decide) hc.experiments hi hpo hx hcut

theorem extends_merged (h : run.merged.Extends i j) :
    run.model.Extends i j ∧ i ∉ species ∧ i ∉ experiments := by
  have ⟨e, he, hp⟩ := h
  have ⟨d, hd, hr⟩ := hc.merged_experiments.1.get?_rev he
  exact hc.extends_experiments ⟨d, hd, hr.parent ▸ hp⟩

-- Placed descriptions come to the end of merging with other members, locks and parents only.
theorem sameKin_merged : Changed SameKin run.model run.merged := by
  have hm := hc.merged_experiments.1.mono fun _ _ => sameKin_of_refilled
  have hx := (hc.experiments_eq ▸ changed_cut run.speciesMerged .experiment experiments :
    Changed SameKin run.speciesMerged run.experiments.1)
  exact ((run.sameKin_speciesMerged hc.species_eq hc.species).trans (fun _ _ _ => .trans) hx).trans
    (fun _ _ _ => .trans) hm

-- Merged descriptions have the parents that cutting links in the linked model leaves.
theorem parent_merged {d : Description} (hd : run.merged.get? i = some d) :
    ∃ e, ((run.model.cut .species species).cut .experiment experiments).get? i = some e ∧
      d.parent = e.parent := by
  have ⟨d₁, hd₁, h₁⟩ := hc.merged_experiments.1.get?_rev hd
  have ⟨d₂, hd₂, h₂⟩ := Option.map_eq_some_iff.mp (get?_cut ▸ hc.experiments_eq ▸ hd₁)
  have ⟨d₃, hd₃, h₃⟩ := (run.merged_species hc.species_eq hc.species).1.get?_rev hd₂
  have ⟨d₄, hd₄, h₄⟩ := Option.map_eq_some_iff.mp (get?_cut ▸ hc.species_eq ▸ hd₃)
  have ⟨d₅, hd₅, h₅⟩ := run.refilled_inherited.get?_rev hd₄
  refine ⟨_, by rw [get?_cut, get?_cut, hd₅]; rfl, ?_⟩
  rw [h₁.parent, ← h₂]
  by_cases hx : i ∈ experiments
  case pos => simp [hx]
  case neg =>
    by_cases hs : i ∈ species
    case pos => simp [hx, hs, h₃.parent, ← h₄]
    case neg => simp [hx, hs, h₃.parent, ← h₄, h₅.parent]

theorem get?_merged_of_species (hk : run.model.isKin .species i = true) :
    run.merged.get? i = run.speciesMerged.get? i := by
  have hno : i ∉ run.experiments.2 := by
    intro hi
    cases isKin_unique hk (run.isKin_of_mem_order hc.experiments hi)
  have hcut : i ∉ experiments := fun hi => by cases isKin_unique hk (hc.experiments.isKin hi)
  rw [hc.merged_experiments.2.1 i hno, hc.experiments_eq, get?_cut]
  simp [hcut]

end Cut

-- The scheduler, as the run adds it behind the descriptions of `merged`.
structure IsScheduler (run : Run a r m) (d : Description) : Prop where
  name : d.name = Keyword.scheduler
  kind : d.kind = .species
  isOwn : d.isOwn = true
  micro : d.micro = []
  owner : d.owner = some rootIndex
  parent : d.parent = some (.builtIn Keyword.agent)
  members : ∃ (e : Description) (agent : Option Description), e.members = ∅ ∧
    d.members = (e.mergedWith agent).members ∧
    ∀ p, run.merged.registry.species.get? Keyword.agent = some p → agent = some p

theorem exists_scheduled : ∃ f ss,
    run.scheduled = (run.merged.withRootFacets f).grow rootIndex
      (if a.addsScheduler r then [run.merged.size] else []) ss ∧
    if a.addsScheduler r then ∃ d, ss = [d] ∧ run.IsScheduler d else ss = [] := by
  have hfacets : run.merged.root.facets = (Declarations.ofTrees r.trees).1.facets := by
    obtain ⟨_, _, hc⟩ := run.exists_cuts
    obtain ⟨d, hd, hb, _⟩ := hc.sameKin_merged.get? (get?_rootIndex run.model)
    rw [root_eq_iff.mpr hd, facets_of_bare hb, run.root_model]
    rfl
  have hsched : run.merged.hasSchedule =
      relocated.any (Declarations.ofTrees r.trees).1.facets.contains := by
    rw [hasSchedule, hfacets]
  have h := run.scheduled_eq
  cases hlegacy : a.settings.legacyScheduling
  case false =>
    have hno : a.addsScheduler r = false := by simp [addsScheduler, hlegacy]
    simp only [hlegacy] at h
    refine ⟨run.merged.root.facets, [], ?_, by simp [hno]⟩
    rw [withRootFacets_self]
    simpa [hno] using (Except.ok.inj h).symm
  case true =>
    simp only [hlegacy, if_true] at h
    cases addScheduler_eq_ok h
    case inl hs =>
      have hno : a.addsScheduler r = false := by simp [addsScheduler, ← hsched, hs.1]
      refine ⟨run.merged.root.facets, [], ?_, by simp [hno]⟩
      rw [withRootFacets_self]
      simpa [hno] using hs.2
    case inr hs =>
      obtain ⟨hyes, f, g, agent, hagent, heq⟩ := hs
      have hyes : a.addsScheduler r = true := by simp [addsScheduler, hlegacy, ← hsched, hyes]
      refine ⟨f, _, by simpa [hyes] using heq, ?_⟩
      simp only [hyes, if_true]
      refine ⟨_, rfl, ?_⟩
      cases agent
      case none => exact ⟨rfl, rfl, rfl, rfl, rfl, rfl, _, none, rfl, rfl, hagent⟩
      case some p => exact ⟨rfl, rfl, rfl, rfl, rfl, rfl, _, some p, rfl, rfl, hagent⟩

-- The types and the locks are all that comes after the scheduler.
theorem locked_final : ∃ types, Changed Locked { run.scheduled with types } m := by
  have ⟨types, ht⟩ := buildTypes_eq_ok run.typed_eq
  exact ⟨types, ht ▸ locked_of_finalizeAll run.finalized_eq⟩

theorem size_merged : run.merged.size = run.model.size := by
  have ⟨_, _, hc⟩ := run.exists_cuts
  exact hc.sameKin_merged.size

theorem registry_final (run : Run a r m) : m.registry = a.registry := by
  have ⟨_, _, hc⟩ := run.exists_cuts
  have ⟨_, hm⟩ := run.locked_final
  have ⟨f, ss, hs, _⟩ := run.exists_scheduled
  rw [hm.registry, hs, ← run.registry_model, ← hc.sameKin_merged.registry]
  rfl

-- Descriptions other than the root come out as they were merged.
theorem get?_of_lt (h0 : i ≠ rootIndex) (hi : i < run.model.size) :
    ∃ d d', run.merged.get? i = some d ∧ m.get? i = some d' ∧ Locked d d' := by
  obtain ⟨_, hm⟩ := run.locked_final
  obtain ⟨f, ss, hs, _⟩ := run.exists_scheduled
  obtain ⟨d, hd⟩ := get?_of_lt_size (run.size_merged ▸ hi)
  have hsd : run.scheduled.get? i = some d := by
    rw [hs, get?_grow_left _ _ (by simpa [withRootFacets, size_merged] using hi) h0]
    simp [withRootFacets, hd, h0]
  obtain ⟨d', hd', hl⟩ := hm.get? hsd
  exact ⟨d, d', hd, hd', hl⟩

theorem size_final : m.size = run.model.size + if a.addsScheduler r then 1 else 0 := by
  obtain ⟨_, hm⟩ := run.locked_final
  obtain ⟨f, ss, hs, hss⟩ := run.exists_scheduled
  have hsize : run.scheduled.size = run.model.size + ss.length := by
    rw [hs, size_grow, withRootFacets, size_alter, size_merged]
  rw [hm.size]
  apply hsize.trans
  cases ha : a.addsScheduler r
  case false => simp_all
  case true =>
    simp only [ha, if_true] at hss
    obtain ⟨d, hd, _⟩ := hss
    simp [hd]

theorem IsScheduler.of_locked {run : Run a r m} {d d' : Description} (h : run.IsScheduler d)
    (hl : Locked d d') : run.IsScheduler d' := by
  unfold Locked at hl
  rw [← hl] at h
  exact ⟨h.name, h.kind, h.isOwn, h.micro, h.owner, h.parent, h.members⟩

-- The scheduler is the last description.
theorem get?_scheduler (ha : a.addsScheduler r = true) :
    ∃ d, m.get? run.model.size = some d ∧ run.IsScheduler d := by
  obtain ⟨_, hm⟩ := run.locked_final
  obtain ⟨f, ss, hs, hss⟩ := run.exists_scheduled
  simp only [ha, if_true] at hss
  obtain ⟨d, hd, hsched⟩ := hss
  have hsize : (run.merged.withRootFacets f).size = run.model.size := by
    rw [withRootFacets, size_alter, size_merged]
  have hsd : run.scheduled.get? run.model.size = some d := by
    rw [hs, get?_grow_right _ _ (Nat.le_of_eq hsize), hsize, hd]
    simp
  obtain ⟨d', hd', hl⟩ := hm.get? hsd
  exact ⟨d', hd', hsched.of_locked hl⟩

-- The root is that of the linked model, with other facets and members and with the scheduler.
theorem exists_root_refilled : ∃ (d : Description) (facets : Facets),
    SameKin run.model.root d ∧ Refilled { d with
      facets, micro := d.micro ++ if a.addsScheduler r then [run.model.size] else [] } m.root := by
  have ⟨_, _, hc⟩ := run.exists_cuts
  have ⟨_, hm⟩ := run.locked_final
  have ⟨f, ss, hs, _⟩ := run.exists_scheduled
  have ⟨d, hd, hk⟩ := hc.sameKin_merged.get? (get?_rootIndex run.model)
  have hroot : run.merged.root = d := root_eq_iff.mpr hd
  have ⟨d', hd', hl⟩ := hm.get? (get?_rootIndex _)
  have hfinal : m.root = d' := root_eq_iff.mpr hd'
  have hsched : run.scheduled.root = { d with
      facets := f, micro := d.micro ++ if a.addsScheduler r then [run.model.size] else [] } := by
    rw [hs, root_grow, withRootFacets, alter, root_mapDescriptions, hroot, size_merged]
    rfl
  have hl : Locked run.scheduled.root m.root := hfinal ▸ hl
  rw [hsched] at hl
  exact ⟨d, f, hk, hl.refilled⟩

theorem root_final :
    m.root.micro = run.model.root.micro ++ (if a.addsScheduler r then [run.model.size] else []) ∧
      m.root.kind = .model ∧ m.root.isOwn = true ∧
        ∃ name, m.root.parent = some (.builtIn name) := by
  have ⟨d, facets, ⟨hb, hp⟩, hrefilled⟩ := run.exists_root_refilled
  refine ⟨?micro, ?kind, ?isOwn, ?parent⟩
  case micro => exact (micro_of_bare hrefilled.bare).trans (by simp [micro_of_bare hb])
  case kind =>
    refine (kind_of_bare hrefilled.bare).trans ((kind_of_bare hb).trans ?_)
    exact run.kind_root
  case isOwn =>
    refine (isOwn_of_bare hrefilled.bare).trans ((isOwn_of_bare hb).trans ?_)
    rw [run.root_model]
    rfl
  case parent =>
    rw [hrefilled.parent]
    cases hp
    case inl hp =>
      rw [run.root_model] at hp
      exact ⟨_, hp⟩
    case inr hp => exact hp

-- The parent of the root is a built-in one.
theorem ne_rootIndex_of_extends (run : Run a r m) {j : Nat} (h : m.Extends i j) :
    i ≠ rootIndex := by
  intro h0
  have ⟨d, hd, hp⟩ := h
  have ⟨_, hroot⟩ := run.root_final.2.2.2
  cases hp.symm.trans (root_eq_iff.mpr (h0 ▸ hd) ▸ hroot)

theorem name_root_final : m.root.name = run.primary.modelName := by
  have ⟨d, facets, ⟨hb, _⟩, hrefilled⟩ := run.exists_root_refilled
  refine (name_of_bare hrefilled.bare).trans ((name_of_bare hb).trans ?_)
  rw [run.root_model]
  rfl

theorem extended (run : Run a r m) : run.Extended m := by
  have ⟨_, _, hc⟩ := run.exists_cuts
  have ⟨hmicro, _, _, hparent⟩ := run.root_final
  refine ⟨run.size_final, hmicro, hparent, fun i h0 hi => ?_, fun ha => ?_⟩
  · have ⟨d, hd⟩ := get?_of_lt_size hi
    have ⟨e, d', he, hd', hl⟩ := run.get?_of_lt h0 hi
    have ⟨e', he', hs⟩ := hc.sameKin_merged.get? hd
    cases he.symm.trans he'
    exact ⟨d, d', hd, hd', hs.trans (sameKin_of_refilled hl.refilled)⟩
  · have ⟨d, hd, hs⟩ := run.get?_scheduler ha
    exact ⟨d, hd, hs.isOwn, hs.micro, _, hs.parent⟩

end Run

end Assembler

end ModelAssembly
