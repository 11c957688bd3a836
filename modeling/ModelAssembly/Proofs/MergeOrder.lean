import ModelAssembly.Proofs.NamedParents
import ModelAssembly.Proofs.Settling
/-!
The order of merging. Members may be merged down along any order that has each parent before its
children: as every description ends up with what its parent ends up with, one order comes to the
same as another. Experiments may be finalized on the way, as locks do not matter to what is merged.

Main statements: `foldl_mergeAt_eq` for merging along two such orders;
`result_foldlM_concludeExperiment` for finalizing on the way; `merging_order_irrelevant` for linked
models.
-/

namespace ModelAssembly

open Description

namespace Model

variable {m n : Model} {i p : Nat} {kind : DescriptionKind} {list list' : List Nat}

-- `list` has the own descriptions of a kind, each of them once and behind its parent.
structure AncestorsFirst (m : Model) (kind : DescriptionKind) (list : List Nat) : Prop where
  nodup : list.Nodup
  mem : ∀ i, i ∈ list ↔ m.isKin kind i = true
  before : ∀ i p, m.kinParent kind i = some p → list.idxOf p < list.idxOf i

namespace AncestorsFirst

variable (h : m.AncestorsFirst kind list)

include h

theorem lt_size (hi : i ∈ list) : i < m.size :=
  have ⟨_, hd, _⟩ := isKin_iff.mp ((h.mem i).mp hi)
  lt_size_of_get? hd

theorem idxOf_lt {d : Description} (hi : i ∈ list) (hd : m.get? i = some d)
    (hp : d.parent = some (.declared p)) (hmem : p ∈ list) : list.idxOf p < list.idxOf i := by
  have ⟨d', hd', hk, ho⟩ := isKin_iff.mp ((h.mem i).mp hi)
  have ⟨e, he, hke, _⟩ := isKin_iff.mp ((h.mem p).mp hmem)
  cases hd.symm.trans hd'
  exact h.before i p (kinParent_eq_some_iff.mpr ⟨d, e, hd, hk, ho, hp, he, hke⟩)

-- What comes of merging along the list: each description has the members of what its parent is
-- then.
theorem get?_foldl_mergeAt :
    (∀ i, i ∉ list → (list.foldl mergeAt m).get? i = m.get? i) ∧
      ∀ i ∈ list, ∃ d, m.get? i = some d ∧ (list.foldl mergeAt m).get? i =
        some (d.mergedWith ((list.foldl mergeAt m).parentOf i)) := by
  have ⟨_, hout, hin⟩ := merged_of_foldl (fun _ _ _ => merges_mergeAt) (fun i => h.lt_size) h.nodup
    fun i d p => h.idxOf_lt
  have hstocked : Changed Stocked m (list.foldl mergeAt m) := stocked_foldl_mergeAt
  refine ⟨hout, fun i hi => ?_⟩
  have ⟨d, e, hd, he, hlocked⟩ := hin i hi
  have ⟨e', he', hstocked⟩ := hstocked.get? hd
  cases he.symm.trans he'
  have hlock : e.isFinalized = (d.mergedWith ((list.foldl mergeAt m).parentOf i)).isFinalized :=
    hstocked.kept.2.trans (isFinalized_mergedWith d _).symm
  refine ⟨d, hd, he.trans (congrArg some ?_)⟩
  rw [Locked, ← hlock] at hlocked
  exact hlocked

-- A rearrangement of the list that keeps parents before their children is another such list.
theorem of_perm (hp : list'.Perm list)
    (hb : ∀ i ∈ list', ∀ p, m.kinParent kind i = some p → list'.idxOf p < list'.idxOf i) :
    m.AncestorsFirst kind list' where
  nodup := hp.nodup_iff.mpr h.nodup
  mem i := hp.mem_iff.trans (h.mem i)
  before i p hk := hb i (hp.mem_iff.mpr ((h.mem i).mpr (isKin_of_kinParent hk))) p hk

theorem foldl_mergeAt_eq (h' : m.AncestorsFirst kind list') :
    list.foldl mergeAt m = list'.foldl mergeAt m := by
  have ⟨hout, hin⟩ := h.get?_foldl_mergeAt
  have ⟨hout', hin'⟩ := h'.get?_foldl_mergeAt
  have hmem (i : Nat) : i ∈ list' ↔ i ∈ list := (h'.mem i).trans (h.mem i).symm
  have hreg (order : List Nat) : (order.foldl mergeAt m).registry = m.registry :=
    stocked_foldl_mergeAt.registry
  refine stocked_foldl_mergeAt.ext stocked_foldl_mergeAt fun i => ?_
  -- By the place in the list: a parent comes first, or it is not in the list at all.
  generalize hk : list.idxOf i = k
  induction k using Nat.strongRecOn generalizing i
  case ind k ih =>
    by_cases hi : i ∈ list
    case neg => rw [hout i hi, hout' i fun hl => hi ((hmem i).mp hl)]
    case pos =>
      have ⟨d, hd, he⟩ := hin i hi
      have ⟨d', hd', he'⟩ := hin' i ((hmem i).mpr hi)
      cases hd.symm.trans hd'
      have hparent : (list.foldl mergeAt m).parentOf i = (list'.foldl mergeAt m).parentOf i := by
        rw [parentOf, parentOf, he, he', Option.bind_some, Option.bind_some, parent_mergedWith,
          parent_mergedWith]
        cases hp : d.parent
        case none => rfl
        case some link =>
          cases link
          case builtIn name =>
            simp only [Option.bind_some, resolve, hreg]
          case declared p =>
            by_cases hpl : p ∈ list
            case pos => exact ih _ (hk ▸ h.idxOf_lt hi hd hp hpl) p rfl
            case neg => exact (hout p hpl).trans (hout' p fun hl => hpl ((hmem p).mp hl)).symm
      rw [he, he', hparent]

end AncestorsFirst

-- Experiments that are concluded one by one: none of them may fail as it stands when all is merged,
-- and all of them are closed then.
theorem result_foldlM_concludeExperiment (hn : list.Nodup)
    (ho : ∀ i ∈ list, ∃ d, m.get? i = some d ∧ d.isFinalized = false ∧ d.kind = .experiment) :
    (list.foldlM Assembler.concludeExperiment m).result = .ok n ↔
      (∀ i ∈ list, ∀ d, (list.foldl mergeAt m).get? i = some d → ¬ d.Fails) ∧
        n = (list.foldl mergeAt m).closeAt list := by
  have hmerged : Changed Kept m (list.foldl mergeAt m) := changed_foldl_mergeAt
  have hkind (i) (hi : i ∈ list) :
      ∃ d, (list.foldl mergeAt m).get? i = some d ∧ d.kind = .experiment := by
    have ⟨d, hd, _, hk⟩ := ho i hi
    have ⟨e, he, hkept⟩ := hmerged.get? hd
    exact ⟨e, he, (kind_of_bare hkept.1.1).trans hk⟩
  have hsettled (i) (hi : i ∈ list) : ∃ d, ((list.foldl mergeAt m).closeAt list).get? i = some d :=
    have ⟨d, hd, _⟩ := hkind i hi
    ⟨_, by rw [get?_closeAt, hd]; rfl⟩
  have hfaults : (∀ i ∈ list, ∀ d, ((list.foldl mergeAt m).closeAt list).get? i = some d →
      d.faults = []) ↔ ∀ i ∈ list, ∀ d, (list.foldl mergeAt m).get? i = some d → ¬ d.Fails := by
    refine forall₂_congr fun i hi => ?_
    have ⟨d, hd, hk⟩ := hkind i hi
    simp [hd, hi, ← faults_eq_nil_iff hk]
    rfl
  rw [foldlM_concludeExperiment hn ho, Outcome.bind_eq_ok_iff, foldl_settleAt_eq, ← hfaults,
    ← forM_judge_eq_ok_iff hsettled]
  constructor
  case mp => exact fun ⟨_, hjudge, hpure⟩ => ⟨hjudge, (Except.ok.inj hpure).symm⟩
  case mpr => exact fun ⟨hjudge, hn⟩ => ⟨(), hjudge, hn ▸ rfl⟩

end Model

namespace Assembler.Linking

open Model

variable {a : Assembler} {r : Request} (l : Linking a r) {kind : DescriptionKind} {n m : Model}
  {order : List Nat}

-- Linearization finds an order in which each parent comes before its children.
theorem ancestorsFirst_of_linearize (hc : Changed Kept l.model n)
    (h : (n.linearize kind).result = .ok (m, order)) :
    Changed Kept l.model m ∧ m.AncestorsFirst kind order := by
  have hl : n.Linearizable kind := l.linearizable_of_kept (fun _ => lt_of_mem_walk h) hc
  have ⟨cuts, order', reports, he, _, hx⟩ := linearize_eq hl
  rw [he] at h
  cases h
  have hs : Changed SameKin l.model n := hc.mono fun _ _ h => h.1
  have hm : Changed Kept l.model (n.cut kind cuts) := hc.kept_trans (changed_kept_cut n kind cuts)
  refine ⟨hm, hx.orderNodup, fun i => ?mem, fun i p hp => ?before⟩
  case mem => rw [isKin_cut, isKin_of_changed hs, l.mem_order_iff hs hx]
  case before =>
    have hcut : i ∉ cuts := by
      intro hi
      have ⟨d, _, hd, _, _, hparent, _⟩ := kinParent_eq_some_iff.mp hp
      have ⟨_, _, hd'⟩ := Option.map_eq_some_iff.mp (get?_cut ▸ hd)
      rw [← hd', if_pos hi] at hparent
      cases hparent
    have hp' := kinParent_of_changed (changed_cut n kind cuts) hp
    have hi : i ∈ n.walk rootIndex := by
      rw [walk_of_changed hs]
      exact l.mem_walk_of_isKin (isKin_of_changed hs ▸ isKin_of_kinParent hp')
    exact hx.before i p hi hp' hcut

end Assembler.Linking

-- Linearization gives one of the orders in which each parent comes before its children, and whether
-- members are merged down along that one or another one makes no difference. Neither does it make a
-- difference if experiments are finalized on the way, provided that none of them fails.
open Assembler Model in
theorem merging_order_irrelevant {a : Assembler} {r : Request} (l : Linking a r)
    {kind : DescriptionKind} {n m : Model} {order : List Nat} (hc : Changed Kept l.model n)
    (h : (n.linearize kind).result = .ok (m, order)) :
    m.AncestorsFirst kind order ∧ ∃ merged, order.foldlM (·.inherit ·) m = .ok merged ∧
      ∀ list, m.AncestorsFirst kind list →
        list.foldlM (·.inherit ·) m = .ok merged ∧
        (kind = .experiment → ∀ concluded,
          (list.foldlM concludeExperiment m).result = .ok concluded ↔
            (∀ i ∈ order, ∀ d, merged.get? i = some d → ¬ d.Fails) ∧
              concluded = merged.closeAt order) := by
  have ⟨hm, hfirst⟩ := l.ancestorsFirst_of_linearize hc h
  have hkin {list : List Nat} (hlist : m.AncestorsFirst kind list) (i) (hi : i ∈ list) :
      l.model.isKin kind i = true :=
    isKin_of_changed (hm.mono fun _ _ h => h.1) ▸ (hlist.mem i).mp hi
  refine ⟨hfirst, order.foldl mergeAt m, l.foldlM_inherit hm (hkin hfirst), fun list hlist => ?_⟩
  have heq : list.foldl mergeAt m = order.foldl mergeAt m := hlist.foldl_mergeAt_eq hfirst
  have hmem (i : Nat) : i ∈ list ↔ i ∈ order := (hlist.mem i).trans (hfirst.mem i).symm
  constructor
  case left => rw [l.foldlM_inherit hm (hkin hlist), heq]
  case right =>
    rintro rfl concluded
    rw [result_foldlM_concludeExperiment hlist.nodup fun i hi =>
      l.exists_open_of_isKin hm (hkin hlist i hi), heq, closeAt_congr hmem]
    simp only [hmem]

-- A harbour with experiments of which two extend the first one.
def harbourExperiments : List Element :=
  let tide : Element := { kind := .member .var, name := some "tide" }
  let ontoBase (name : String) : Element :=
    { kind := .experiment, name := some name, facets := .ofList [(Keyword.parent, "base")] }
  [{ kind := .experiment, name := some "base", children := [tide] }, ontoBase "calm",
    ontoBase "storm"]

def harbourRequest : Request where
  primary := "main"
  trees := [{ kind := .model, name := some "main", children := harbourExperiments }]

-- What the experiments come to in the order 1, 3, 2, they come to in the order 1, 2, 3.
open Assembler Model in
theorem merging_order_irrelevant_in_harbour : ∃ (l : Linking {} harbourRequest) (m merged : Model),
    (l.complemented.linearize .experiment).result = .ok (m, [1, 3, 2]) ∧
    m.AncestorsFirst .experiment [1, 2, 3] ∧
    [1, 3, 2].foldlM (·.inherit ·) m = .ok merged ∧
    [1, 2, 3].foldlM (·.inherit ·) m = .ok merged ∧
    ([1, 2, 3].foldlM concludeExperiment m).result = .ok (merged.closeAt [1, 3, 2]) := by
  have htrees : harbourRequest.trees =
    [{ kind := .model, name := some "main", children := harbourExperiments }] := rfl
  have ⟨l, hfacts⟩ := exists_linking_of_any (a := {}) htrees (p := fun m => (do
      let m ← (m.addOwnMembers [] (Placement.numbered 1 harbourExperiments)).result
      let linearized ← (m.linearize .experiment).result
      let _ ← ([1, 2, 3].foldlM concludeExperiment linearized.1).result
      return (linearized.2, linearized.2.map (linearized.1.kinParent .experiment)) :
        Except AssemblyError _).toOption.any (· = ([1, 3, 2], [none, some 1, some 1])))
    (by decide +kernel)
  have hnodes : l.placement.nodes = Placement.numbered 1 harbourExperiments := by
    rw [l.nodes_placement, l.base_eq]
    rfl
  have hcomplemented := l.result_addOwnMembers
  rw [hnodes] at hcomplemented
  have ⟨x, hx, hfacts⟩ := (Option.any_eq_true _ _).mp hfacts
  have ⟨c, hc, hx⟩ := bind_eq_ok_iff.mp (toOption_eq_some_iff.mp hx)
  cases hc.symm.trans hcomplemented
  have ⟨⟨m, order⟩, hm, hx⟩ := bind_eq_ok_iff.mp hx
  have ⟨concluded, hconcluded, hx⟩ := bind_eq_ok_iff.mp hx
  cases hx
  have ⟨horder, hparents⟩ := Prod.mk.inj (of_decide_eq_true hfacts)
  subst horder
  have ⟨hfirst, merged, hmerged, hall⟩ := merging_order_irrelevant l l.kept_complemented hm
  have hlist : m.AncestorsFirst .experiment [1, 2, 3] := by
    refine hfirst.of_perm (by decide) fun i hi p hp => ?_
    simp only [List.map_cons, List.map_nil, List.cons.injEq, and_true] at hparents
    have ⟨h1, h3, h2⟩ := hparents
    simp only [List.mem_cons, List.not_mem_nil, or_false] at hi
    rcases hi with rfl | rfl | rfl
    case inl => cases h1.symm.trans hp
    case inr.inl =>
      cases h2.symm.trans hp
      decide
    case inr.inr =>
      cases h3.symm.trans hp
      decide
  have ⟨hinherit, hconclude⟩ := hall _ hlist
  have ⟨_, hclosed⟩ := (hconclude rfl concluded).mp hconcluded
  exact ⟨l, m, merged, hm, hlist, hmerged, hinherit, hclosed ▸ hconcluded⟩

end ModelAssembly
