import ModelAssembly.Proofs.Scheduler
/-!
Settling: what drafting comes to where no parent leads back to its child. No link is cut then, and
each description ends up with its own members behind those of its parent. As the parents come first
in some order, this says which members there are.

Main statements: `merged_of_foldl` for merging along such an order; `exists_settled` says that a
draft is settled, with the orders in which its members were merged.
-/

open Relation

namespace ModelAssembly

open Description

namespace Model

variable {m n : Model} {i j : Nat} {d d' : Description} {kind : DescriptionKind} {order : List Nat}

-- `d'` is `d` with other members.
def Stocked (d d' : Description) : Prop := { d' with members := d.members } = d

theorem Stocked.refl (d : Description) : Stocked d d := rfl

theorem Stocked.trans {e : Description} (h : Stocked d d') (h' : Stocked d' e) : Stocked d e := by
  unfold Stocked at *
  rw [← h, ← h']

theorem Stocked.refilled (h : Stocked d d') : Refilled d d' := by
  unfold Stocked at h
  unfold Refilled
  rw [← h]

theorem Stocked.kept (h : Stocked d d') : Kept d d' :=
  ⟨sameKin_of_refilled h.refilled, by unfold Stocked at h; rw [← h]⟩

theorem stocked_mergedWith (d : Description) (p : Option Description) :
    Stocked d (d.mergedWith p) := by
  cases p <;> rfl

theorem stocked_mergeAt (m : Model) (i : Nat) : Changed Stocked m (m.mergeAt i) :=
  changed_alter .refl fun d => stocked_mergedWith d _

theorem stocked_foldl_mergeAt : Changed Stocked m (order.foldl mergeAt m) := by
  induction order generalizing m
  case nil => exact .refl .refl m
  case cons i order hi => exact (stocked_mergeAt m i).trans (fun _ _ _ => .trans) hi

theorem merges_mergeAt (hd : m.get? i = some d) : m.Merges i (m.mergeAt i) :=
  ⟨d, _, hd, (set_eq_alter hd _).symm, .refl _⟩

theorem merges_settleAt (hd : m.get? i = some d) : m.Merges i (m.settleAt i) :=
  ⟨d, _, hd, (set_eq_alter hd _).symm, rfl⟩

-- Merging along an order, where each step is known to merge.
theorem merged_of_foldl {f : Model → Nat → Model}
    (hf : ∀ (m : Model) i d, m.get? i = some d → m.Merges i (f m i))
    (hi : ∀ i ∈ order, i < m.size) (hn : order.Nodup)
    (hb : ∀ i d p, i ∈ order → m.get? i = some d → d.parent = some (.declared p) → p ∈ order →
      order.idxOf p < order.idxOf i) :
    Changed Refilled m (order.foldl f m) ∧
      (∀ i, i ∉ order → (order.foldl f m).get? i = m.get? i) ∧
      ∀ i ∈ order, ∃ d d', m.get? i = some d ∧ (order.foldl f m).get? i = some d' ∧
        Locked (d.mergedWith ((order.foldl f m).parentOf i)) d' := by
  let step (m : Model) (i : Nat) : Except ModelError Model := do
    let _ ← m.get i
    return f m i
  have hstep (m : Model) (i : Nat) (m') (h : step m i = .ok m') : m.Merges i m' := by
    have ⟨d, hd, h⟩ := bind_eq_ok_iff.mp h
    cases h
    exact hf m i d (get_eq_ok_iff.mp hd)
  have hrun : order.foldlM step m = .ok (order.foldl f m) := by
    clear hn hb
    induction order generalizing m
    case nil => rfl
    case cons i order ih =>
      have ⟨d, hd⟩ := get?_of_lt_size (hi i List.mem_cons_self)
      have hs : step m i = .ok (f m i) := bind_eq_ok_iff.mpr ⟨d, get_eq_ok_iff.mpr hd, rfl⟩
      have hsize := (hf m i d hd).changed.size
      rw [List.foldlM_cons, hs]
      exact ih fun j hj => hsize ▸ hi j (List.mem_cons_of_mem i hj)
  exact merged_of_foldlM hstep hrun hn hb

theorem any_kind {other : DescriptionKind} (hd : m.get? i = some d) (hi : m.isKin kind i = true)
    (hj : m.isKin other j = true) :
    (m.get? j).any (·.kind = d.kind) = decide (other = kind) := by
  have ⟨d', hd', hk, _⟩ := isKin_iff.mp hi
  have ⟨e, he, hke, _⟩ := isKin_iff.mp hj
  cases hd.symm.trans hd'
  rw [he, Option.any_some, hk, hke]

end Model

namespace Assembler.Linking

open Model

variable {a : Assembler} {r : Request} {l : Linking a r} {m n : Model} {kind : DescriptionKind}
  {i j : Nat} {species experiments order : List Nat} {d : Description}

theorem stocked_complemented (l : Linking a r) : Changed Stocked l.model l.complemented := by
  refine ⟨_, rfl, fun i d _ => ?_⟩
  split
  case isTrue => rfl
  case isFalse => split <;> rfl

-- Where the links lead to no cycle, linearization only finds an order.
theorem linearize_of_acyclic (hin : l.model.InRange) (kind : DescriptionKind)
    (hc : Changed Stocked l.model n)
    (ha : ∀ i, ¬ TransGen (Leads (l.model.kinParent kind)) i i) :
    ∃ order reports, n.linearize kind = ⟨.ok (n, order), reports⟩ ∧
      l.model.Linearized kind [] order := by
  have hkept : Changed Kept l.model n := hc.mono fun _ _ h => h.kept
  have hl : n.Linearizable kind := l.linearizable_of_kept (l.walk_of_kept hin hkept) hkept
  have ⟨cuts, order, reports, he, _, hx⟩ := linearize_eq hl
  have hx := (hc.mono fun _ _ h => h.refilled).linearized hx
  have hnil : cuts = [] :=
    List.eq_nil_iff_forall_not_mem.mpr fun i hi => ha i ((hx.cut i).mp hi).cycle
  subst hnil
  rw [cut_nil] at he
  exact ⟨order, reports, he, hx⟩

-- Members are merged down into the root and then into `species`.
def filled (l : Linking a r) (species : List Nat) : Model :=
  species.foldl mergeAt (l.complemented.mergeAt rootIndex)

-- After the species it is the turn of `experiments`.
def settled (l : Linking a r) (species experiments : List Nat) : Model :=
  experiments.foldl settleAt (l.filled species)

theorem stocked_filled (l : Linking a r) (species : List Nat) :
    Changed Stocked l.model (l.filled species) :=
  (l.stocked_complemented.trans (fun _ _ _ => .trans) (stocked_mergeAt _ _)).trans
    (fun _ _ _ => .trans) stocked_foldl_mergeAt

theorem sameKin_settled (l : Linking a r) (species experiments : List Nat) :
    Changed SameKin (l.filled species) (l.settled species experiments) :=
  changed_foldl_settleAt

-- The orders in which members are merged down.
structure Orders (l : Linking a r) (species experiments : List Nat) : Prop where
  species : l.model.Linearized .species [] species
  experiments : l.model.Linearized .experiment [] experiments

theorem exists_orders (hin : l.model.InRange)
    (ha : ∀ kind i, ¬ TransGen (Leads (l.model.kinParent kind)) i i) :
    ∃ species experiments reports, l.Orders species experiments ∧
      mergeSpecies l.complemented =
        ⟨.ok (l.filled species, experiments), reports⟩ := by
  have hopen : l.complemented.root.isFinalized = false := by
    have ⟨d, hd, hs⟩ := l.stocked_complemented.get? (get?_rootIndex l.model)
    exact root_eq_iff.mpr hd ▸ hs.kept.2.trans l.isFinalized_root
  have h₁ := l.stocked_complemented.trans (fun _ _ _ => .trans)
    (stocked_mergeAt l.complemented rootIndex)
  have ⟨species, reports₂, he₂, hs⟩ := linearize_of_acyclic hin .species h₁ (ha _)
  have he₃ : inheritAll (l.complemented.mergeAt rootIndex) species = pure (l.filled species) :=
    l.inheritAll_eq (h₁.mono fun _ _ h => h.kept) fun _ hi => l.isKin_of_mem_order hs hi
  have ⟨experiments, reports, he, hx⟩ :=
    linearize_of_acyclic hin .experiment (l.stocked_filled species) (ha _)
  refine ⟨species, experiments, reports₂ ++ reports, ⟨hs, hx⟩, ?_⟩
  rw [mergeSpecies, inherit_eq (get?_rootIndex _) hopen, Outcome.ofModel_ok, pure_bind,
    Outcome.bind_of_eq he₂]
  simp only [he₃, pure_bind, he]

-- Finishing adds nothing but the scheduler, which takes facets from the root.
theorem kept_of_finish (ho : n.root.isFinalized = false) (h : (a.finish n).result = .ok m) :
    (∃ micro, m.root = { n.root with
      facets := if a.settings.legacyScheduling && n.hasSchedule then n.root.facets.without relocated
        else n.root.facets
      micro }) ∧
    (∀ i, i ≠ rootIndex → i < n.size → m.get? i = n.get? i) ∧
    ∀ i d, n.size ≤ i → m.get? i = some d → d.name = Keyword.scheduler := by
  have ⟨_, ht⟩ := finish_eq_ok ho h
  subst ht
  cases a.settings.legacyScheduling && n.hasSchedule
  case false =>
    refine ⟨⟨_, rfl⟩, fun _ _ _ => rfl, fun i d hi hd => ?_⟩
    exact absurd (lt_size_of_get? hd) (Nat.not_lt_of_le hi)
  case true =>
    refine ⟨⟨_, root_withScheduler⟩, fun i h0 hi => get?_withScheduler h0 hi, fun i d hi hd => ?_⟩
    have hlt : i < n.withScheduler.size := lt_size_of_get? hd
    rw [size_withScheduler] at hlt
    have he : i = n.size := by omega
    cases (get?_scheduler (m := n)).symm.trans (he ▸ hd)
    have ⟨_, hs⟩ := scheduler_eq (m := n)
    rw [hs]
    rfl

-- What is merged down into `d`: the parent as it stands in `m`, or, if that is of another kind, as
-- it stands before anything is merged.
def source (l : Linking a r) (m : Model) (d : Description) : Option Description :=
  match d.parent with
  | none => none
  | some (.builtIn b) => a.registry.lookup b
  | some (.declared j) =>
    if (l.model.get? j).any (·.kind = d.kind) then m.get? j else l.complemented.get? j

-- In `m` all members are merged down, and no link is cut. Scheduling facets have left the root, for
-- the only description behind the placed ones.
structure Settled (l : Linking a r) (m : Model) : Prop where
  root : ∃ micro, m.root = { l.complemented.root.mergedWith (l.complemented.parentOf rootIndex) with
    facets := if a.addsScheduler r then l.model.root.facets.without relocated
      else l.model.root.facets
    micro }
  placed : ∀ i d, l.base ≤ i → l.model.get? i = some d → ∃ e, m.get? i = some e ∧
    e.bare = d.bare ∧ e.parent = d.parent ∧
    e.members = ((d.withMembers (l.ownMembers i)).mergedWith (l.source m d)).members
  scheduler : ∀ i d, l.model.size ≤ i → m.get? i = some d → d.name = Keyword.scheduler
  -- Parents of the same kind come first.
  rank : ∃ rank : Nat → Nat, ∀ i j d, l.base ≤ i → l.model.get? i = some d →
    d.parent = some (.declared j) → (l.model.get? j).any (·.kind = d.kind) = true → rank j < rank i

namespace Orders

variable (ho : l.Orders species experiments)

include ho

theorem exists_mem (hi : l.base ≤ i) (hlt : i < l.model.size) :
    l.model.isKin .species i = true ∧ i ∈ species ∧ i ∉ experiments ∨
      l.model.isKin .experiment i = true ∧ i ∈ experiments ∧ i ∉ species := by
  cases l.isKin_of_placed hi hlt
  case inl hk =>
    refine .inl ⟨hk, l.mem_order ho.species hk, fun hx => ?_⟩
    cases isKin_unique hk (l.isKin_of_mem_order ho.experiments hx)
  case inr hk =>
    refine .inr ⟨hk, l.mem_order ho.experiments hk, fun hs => ?_⟩
    cases isKin_unique hk (l.isKin_of_mem_order ho.species hs)

theorem root_not_mem : rootIndex ∉ species ∧ rootIndex ∉ experiments := by
  have hno {kind : DescriptionKind} (hk : kind ≠ .model) :
      ¬ l.model.isKin kind rootIndex = true := fun h =>
    absurd (Nat.lt_of_lt_of_le l.base_pos (l.placed_of_isKin hk h).1) (Nat.lt_irrefl _)
  exact ⟨fun h => hno (by decide) (l.isKin_of_mem_order ho.species h),
    fun h => hno (by decide) (l.isKin_of_mem_order ho.experiments h)⟩

end Orders

theorem parentOf_eq_source {k : Model} {e : Description} (hr : k.registry = a.registry)
    (he : k.get? i = some e) (hp : e.parent = d.parent)
    (hj : ∀ j, d.parent = some (.declared j) → k.get? j =
      if (l.model.get? j).any (·.kind = d.kind) then m.get? j else l.complemented.get? j) :
    k.parentOf i = l.source m d := by
  rw [parentOf, he, Option.bind_some, hp, source]
  cases hlink : d.parent
  case none => rfl
  case some link =>
    cases link
    case builtIn b => simp [resolve, hr]
    case declared j => simpa [resolve] using hj j hlink

namespace Orders

variable (ho : l.Orders species experiments)

include ho

-- Until the experiments have their turn, all but the root and the species stay as they were.
theorem get?_filled :
    (l.filled species).root = l.complemented.root.mergedWith (l.complemented.parentOf rootIndex) ∧
    (∀ i, i ≠ rootIndex → i ∉ species → (l.filled species).get? i = l.complemented.get? i) ∧
    ∀ i ∈ species, ∃ d d', l.complemented.get? i = some d ∧ (l.filled species).get? i = some d' ∧
      Locked (d.mergedWith ((l.filled species).parentOf i)) d' := by
  have hc := l.stocked_complemented.trans (fun _ _ _ => .trans) (stocked_mergeAt _ rootIndex)
  have hin (i) (hi : i ∈ species) := l.placed_of_isKin (by decide)
    (l.isKin_of_mem_order ho.species hi)
  have hsame (i : Nat) (h0 : i ≠ rootIndex) :
      (l.complemented.mergeAt rootIndex).get? i = l.complemented.get? i := by
    simp [mergeAt, h0]
  have hbefore (i d p) (hi : i ∈ species) (hd : (l.complemented.mergeAt rootIndex).get? i = some d)
      (hp : d.parent = some (.declared p)) (hpo : p ∈ species) :
      species.idxOf p < species.idxOf i := by
    obtain ⟨e, he, hs⟩ := hc.get?_rev hd
    exact l.idxOf_lt_of_extends (by decide) ho.species hi hpo
      ⟨e, he, hs.refilled.parent ▸ hp⟩ (by simp)
  obtain ⟨_, hout, hmerged⟩ := merged_of_foldl (fun _ _ _ => merges_mergeAt)
    (fun i hi => hc.size ▸ (hin i hi).2) ho.species.orderNodup hbefore
  refine ⟨?root, fun i h0 hi => (hout i hi).trans (hsame i h0), fun i hi => ?_⟩
  case root =>
    rw [root_eq_iff, filled, hout _ ho.root_not_mem.1, mergeAt, get?_alter, get?_rootIndex]
    simp
  · have h0 : i ≠ rootIndex := Nat.ne_of_gt (Nat.lt_of_lt_of_le l.base_pos (hin i hi).1)
    exact hsame i h0 ▸ hmerged i hi

theorem get?_settled :
    (∀ i, i ∉ experiments → (l.settled species experiments).get? i = (l.filled species).get? i) ∧
    ∀ i ∈ experiments, ∃ d d', (l.filled species).get? i = some d ∧
      (l.settled species experiments).get? i = some d' ∧
        Locked (d.mergedWith ((l.settled species experiments).parentOf i)) d' := by
  have hc := l.stocked_filled species
  have hin (i) (hi : i ∈ experiments) : i < (l.filled species).size :=
    hc.size ▸ (l.placed_of_isKin (by decide)
      (l.isKin_of_mem_order ho.experiments hi)).2
  refine (merged_of_foldl (fun _ _ _ => merges_settleAt) hin ho.experiments.orderNodup ?_).2
  intro i d p hi hd hp hpo
  have ⟨e, he, hs⟩ := hc.get?_rev hd
  exact l.idxOf_lt_of_extends (by decide) ho.experiments hi hpo
    ⟨e, he, hs.refilled.parent ▸ hp⟩ (by simp)

theorem root_settled :
    (l.settled species experiments).root =
      l.complemented.root.mergedWith (l.complemented.parentOf rootIndex) := by
  rw [root_eq_iff, ho.get?_settled.1 _ ho.root_not_mem.2, get?_rootIndex, ho.get?_filled.1]

-- Each placed description is merged with its source.
theorem merged_settled (hi : l.base ≤ i) (hd : l.model.get? i = some d) :
    ∃ e, (l.settled species experiments).get? i = some e ∧
      Locked ((d.withMembers (l.ownMembers i)).mergedWith
        (l.source (l.settled species experiments) d)) e := by
  have hlt := lt_size_of_get? hd
  have hparent {e : Description} {p : Option Description}
      (hl : Locked ((d.withMembers (l.ownMembers i)).mergedWith p) e) : e.parent = d.parent :=
    hl.refilled.parent.trans (stocked_mergedWith _ p).refilled.parent
  have hplaced (j : Nat) (hj : d.parent = some (.declared j)) :
      l.base ≤ j ∧ j < l.model.size ∧
        (l.model.isKin .experiment i = true → l.model.isKin .experiment j = true) :=
    l.extends_of_placed hi ⟨d, hd, hj⟩
  have hreg : (l.filled species).registry = a.registry :=
    (l.stocked_filled species).registry.trans l.registry_model
  have hreg' : (l.settled species experiments).registry = a.registry :=
    (l.sameKin_settled species experiments).registry.trans hreg
  cases ho.exists_mem hi hlt
  case inl hs =>
    have ⟨hk, hmem, hno⟩ := hs
    have ⟨x, e, hx, he, hl⟩ := ho.get?_filled.2.2 i hmem
    cases hx.symm.trans (get?_complemented hi hd)
    refine ⟨e, (ho.get?_settled.1 i hno).trans he, ?_⟩
    rw [← parentOf_eq_source hreg he (hparent hl) fun j hj => ?_]
    · exact hl
    have ⟨hle, hjlt, _⟩ := hplaced j hj
    cases ho.exists_mem hle hjlt
    case inl hs =>
      rw [any_kind hd hk hs.1, if_pos (decide_eq_true rfl), ho.get?_settled.1 j hs.2.2]
    case inr hx =>
      have h0 : j ≠ rootIndex := Nat.ne_of_gt (Nat.lt_of_lt_of_le l.base_pos hle)
      rw [any_kind hd hk hx.1, ho.get?_filled.2.1 j h0 hx.2.2]
      rfl
  case inr hx =>
    have ⟨hk, hmem, hno⟩ := hx
    have h0 : i ≠ rootIndex := Nat.ne_of_gt (Nat.lt_of_lt_of_le l.base_pos hi)
    have ⟨x, e, hx, he, hl⟩ := ho.get?_settled.2 i hmem
    rw [ho.get?_filled.2.1 i h0 hno] at hx
    cases hx.symm.trans (get?_complemented hi hd)
    refine ⟨e, he, ?_⟩
    rw [← parentOf_eq_source hreg' he (hparent hl) fun j hj => ?_]
    · exact hl
    rw [any_kind hd hk ((hplaced j hj).2.2 hk), if_pos (decide_eq_true rfl)]

theorem exists_rank : ∃ rank : Nat → Nat, ∀ i j d, l.base ≤ i → l.model.get? i = some d →
    d.parent = some (.declared j) → (l.model.get? j).any (·.kind = d.kind) = true →
      rank j < rank i := by
  refine ⟨fun i => if i ∈ species then species.idxOf i else experiments.idxOf i, ?_⟩
  intro i j d hi hd hj hkind
  have hx : l.model.Extends i j := ⟨d, hd, hj⟩
  have ⟨hle, hlt, _⟩ := l.extends_of_placed hi hx
  cases ho.exists_mem hi (lt_size_of_get? hd)
  case inl hs =>
    cases ho.exists_mem hle hlt
    case inl hs' =>
      simp only [hs.2.1, hs'.2.1, if_true]
      exact l.idxOf_lt_of_extends (by decide) ho.species hs.2.1 hs'.2.1 hx (by simp)
    case inr hx' =>
      rw [any_kind hd hs.1 hx'.1] at hkind
      cases hkind
  case inr hs =>
    cases ho.exists_mem hle hlt
    case inl hs' =>
      rw [any_kind hd hs.1 hs'.1] at hkind
      cases hkind
    case inr hx' =>
      simp only [hs.2.2, hx'.2.2, if_false]
      exact l.idxOf_lt_of_extends (by decide) ho.experiments hs.2.1 hx'.2.1 hx (by simp)

end Orders

-- The stages of drafting behind the own members.
theorem stages_of_draft (l : Linking a r) (h : (a.draft r).result = .ok (m, experiments)) :
    ∃ n, (mergeSpecies l.complemented).result = .ok (n, experiments) ∧
      (a.finish (experiments.foldl settleAt n)).result = .ok m := by
  rw [draft_eq_populated] at h
  have ⟨k, hk, h⟩ := Outcome.bind_eq_ok_iff.mp h
  have ⟨⟨n, order⟩, hm, h⟩ := Outcome.bind_eq_ok_iff.mp h
  have ⟨m', hf, h⟩ := Outcome.bind_eq_ok_iff.mp h
  cases h
  exact ⟨n, l.eq_complemented hk ▸ hm, hf⟩

theorem exists_settled (l : Linking a r) (hin : l.model.InRange)
    (ha : ∀ kind i, ¬ TransGen (Leads (l.model.kinParent kind)) i i)
    (h : (a.draft r).result = .ok (m, experiments)) :
    l.Settled m := by
  obtain ⟨n, hn, hf⟩ := l.stages_of_draft h
  obtain ⟨species, order, _, ho, he⟩ := exists_orders hin ha
  rw [he] at hn
  cases hn
  have hopen : (l.settled species experiments).root.isFinalized = false := by
    rw [ho.root_settled, isFinalized_mergedWith]
    obtain ⟨d, hd, hs⟩ := l.stocked_complemented.get? (get?_rootIndex l.model)
    exact root_eq_iff.mpr hd ▸ hs.kept.2.trans l.isFinalized_root
  have hfacets : (l.settled species experiments).root.facets = l.model.root.facets := by
    rw [ho.root_settled, facets_of_bare (bare_mergedWith ..)]
    obtain ⟨d, hd, hs⟩ := l.stocked_complemented.get? (get?_rootIndex l.model)
    exact root_eq_iff.mpr hd ▸ facets_of_bare hs.refilled.bare
  have hsched : (a.settings.legacyScheduling && (l.settled species experiments).hasSchedule) =
      a.addsScheduler r := by
    rw [hasSchedule, hfacets, l.root_model]
    rfl
  obtain ⟨hroot, hsame, hscheduler⟩ := kept_of_finish hopen hf
  rw [hsched, hfacets, ho.root_settled] at hroot
  have hsize : (l.settled species experiments).size = l.model.size :=
    (l.sameKin_settled species experiments).size.trans (l.stocked_filled species).size
  have hget (i : Nat) (hi : l.base ≤ i) (hlt : i < l.model.size) :
      m.get? i = (l.settled species experiments).get? i :=
    hsame i (Nat.ne_of_gt (Nat.lt_of_lt_of_le l.base_pos hi)) (hsize ▸ hlt)
  refine ⟨hroot, fun i d hi hd => ?_, fun i d hi => hscheduler i d (hsize ▸ hi), ho.exists_rank⟩
  obtain ⟨e, he, hl⟩ := ho.merged_settled hi hd
  have hs := stocked_mergedWith (d.withMembers (l.ownMembers i))
    (l.source (l.settled species experiments) d)
  refine ⟨e, (hget i hi (lt_size_of_get? hd)).trans he, hl.refilled.bare.trans hs.refilled.bare,
    hl.refilled.parent.trans hs.refilled.parent, hl.members.trans ?_⟩
  have hsource : l.source m d = l.source (l.settled species experiments) d := by
    unfold source
    split
    case h_1 => rfl
    case h_2 => rfl
    case h_3 j hj =>
      obtain ⟨hle, hjlt, _⟩ := l.extends_of_placed hi ⟨d, hd, hj⟩
      rw [hget j hle hjlt]
  rw [hsource]

end Assembler.Linking
end ModelAssembly
