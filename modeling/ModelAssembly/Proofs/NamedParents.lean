import ModelAssembly.Proofs.Naming
import ModelAssembly.Proofs.ParentLinks
/-!
Parents by name. Linking knows one description for each name, whatever it is: the last one that was
placed. A species extends that one, an experiment does so if it is an experiment, and no other
description of the name comes into question.

Main statements: `get?_indices_iff` says which description linking knows for a name,
`parent_of_species` and `parent_of_experiment` whom it makes of it; `parents_by_name` tells when the
kind of the child is respected.
-/

namespace ModelAssembly

open Model

namespace Placement

theorem pairwise_named (start : Nat) (es : List Element) :
    (named start es).Pairwise (·.2 < ·.2) := by
  have hs : ((named start es).map Prod.snd).Pairwise (· < ·) := by
    rw [named, List.map_map]
    change ((es.zipIdx start).map Prod.snd).Pairwise (· < ·)
    rw [List.zipIdx_map_snd]
    exact List.pairwise_lt_range'
  exact List.pairwise_map.mp hs

end Placement

theorem lookup_eq_some_iff_find? {κ α : Type} [DecidableEq κ] {es : List (κ × α)} {k : κ} {v : α} :
    es.lookup k = some v ↔ es.find? (fun e => e.1 == k) = some (k, v) := by
  induction es
  case nil => simp
  case cons e es hi =>
    have ⟨j, w⟩ := e
    by_cases hj : j = k
    case pos => simp [hj]
    case neg =>
      have hk : (k == j) = false := by simpa using fun h => hj h.symm
      rw [List.find?_cons_of_neg (by simpa using hj), List.lookup_cons, hk, hi]

namespace Assembler.Linking

open Declarations

variable {a : Assembler} {r : Request} (l : Linking a r) {i p : Nat} {d : Description}
  {name : String}

-- The own descriptions of a name are those that were placed for a declaration of that name.
theorem mem_bearers_own : p ∈ l.model.bearers name (·.isOwn) ↔
    (name, p) ∈ Placement.named l.base (placed l.declared) := by
  have hbase := l.base_pos
  rw [Placement.mem_named]
  constructor
  case mp =>
    intro ⟨h0, d, hd, hn, ho⟩
    have hle := (l.isOwn_iff (Nat.pos_of_ne_zero h0) hd).mp ho
    have ⟨e, d₀, he, ⟨origin, owner, micro, hd₀⟩, hlink⟩ := l.places_of_le hle hd
    have hname : d.name = e.nameOrKeyword := by rw [hlink, hd₀]; rfl
    exact ⟨p - l.base, e, by omega, he, hname.symm.trans hn⟩
  case mpr =>
    intro ⟨k, e, hp, he, hn⟩
    have hk := List.getElem?_eq_some_iff.mp he |>.1
    have hle : l.base ≤ p := by omega
    have ⟨d, hd⟩ := get?_of_lt_size (m := l.model) (i := p) (by rw [size_model]; omega)
    have ⟨e', d₀, he', ⟨origin, owner, micro, hd₀⟩, hlink⟩ := l.places_of_le hle hd
    rw [hp, Nat.add_sub_cancel_left, he] at he'
    cases he'
    have hname : d.name = e.nameOrKeyword := by rw [hlink, hd₀]; rfl
    have h0 : 0 < p := Nat.lt_of_lt_of_le hbase hle
    exact ⟨Nat.ne_of_gt h0, d, hd, hname.trans hn, (l.isOwn_iff h0 hd).mpr hle⟩

-- Of several descriptions of a name, linking knows the last.
theorem get?_indices_iff : l.placement.indices.get? name = some p ↔
    IsGreatest (l.model.bearers name (·.isOwn)) p := by
  have hr : (Placement.named l.base (placed l.declared)).reverse.Pairwise
      fun x y => OrderDual.toDual x.2 < OrderDual.toDual y.2 :=
    List.pairwise_reverse.mpr (Placement.pairwise_named ..)
  rw [l.indices_placement, OrderedMap.get?_ofList, lookup_eq_some_iff_find?,
    find?_eq_some_iff_of_pairwise hr, List.mem_reverse, ← mem_bearers_own]
  refine and_congr_right fun _ => ⟨fun ⟨_, h⟩ j hj => ?_, fun h => ⟨beq_self_eq_true name, ?_⟩⟩
  · exact h (name, j) (List.mem_reverse.mpr (l.mem_bearers_own.mp hj)) (beq_self_eq_true name)
  · intro (other, j) hx hn
    cases beq_iff_eq.mp hn
    exact h (l.mem_bearers_own.mpr (List.mem_reverse.mp hx))

section

variable (hf : d.facets.get? Keyword.parent = some name)

include hf

theorem speciesParent_eq_declared_iff : l.placement.speciesParent d = .declared p ↔
    IsGreatest (l.model.bearers name (·.isOwn)) p := by
  rw [← l.get?_indices_iff, Placement.speciesParent, hf]
  cases hp : l.placement.indices.get? name
  case none =>
    simp only [hp]
    split <;> simp
  case some => simp [hp]

theorem speciesParent_of_unknown (hno : l.model.bearers name (·.isOwn) = ∅) :
    l.placement.speciesParent d = .builtIn
      (if (a.registry.species.get? name).isSome then name else Keyword.agent) := by
  have hp : l.placement.indices.get? name = none := by
    apply Option.eq_none_iff_forall_ne_some.mpr
    intro p hp
    exact Set.eq_empty_iff_forall_notMem.mp hno p (l.get?_indices_iff.mp hp).1
  rw [Placement.speciesParent, hf]
  simp only [hp, l.registry_placement]
  split <;> rfl

theorem experimentParent_eq_declared_iff : l.placement.experimentParent d = .declared p ↔
    IsGreatest (l.model.bearers name (·.isOwn)) p ∧
      ∃ e, l.model.get? p = some e ∧ e.kind = .experiment := by
  have hkind : (∃ e, l.model.get? p = some e ∧ e.kind = .experiment) ↔
      (l.placement.model.get? p).any (·.isExperiment) = true := by
    rw [l.model_eq_map, get?_mapDescriptions]
    cases l.placement.model.get? p
    case none => simp
    case some e =>
      simp only [Option.any_some, Option.map_some, Option.some.injEq, exists_eq_left',
        Description.isExperiment, beq_iff_eq]
      split <;> rfl
  simp only [← l.get?_indices_iff, hkind, Placement.experimentParent, hf, Option.bind_some]
  split
  case h_1 q hq =>
    obtain ⟨hi, hx⟩ := Option.filter_eq_some_iff.mp hq
    rw [ParentLink.declared.injEq, hi, Option.some.injEq]
    exact ⟨fun he => ⟨he, he ▸ hx⟩, And.left⟩
  case h_2 hnone =>
    simp only [reduceCtorEq, false_iff]
    rintro ⟨hi, hx⟩
    cases hnone.symm.trans (Option.filter_eq_some_iff.mpr ⟨hi, hx⟩)

end

theorem experimentParent_of_undeclared (hno : ∀ p, l.placement.experimentParent d ≠ .declared p) :
    l.placement.experimentParent d = .builtIn Keyword.experiment := by
  simp only [Placement.experimentParent] at hno ⊢
  split
  case h_1 p hp => exact absurd (by simp [hp]) (hno p)
  case h_2 => rfl

-- A child is linked to the last own description of the name that it asks for, an experiment only if
-- that is an experiment.
theorem parent_eq_declared_iff (hd : l.model.get? i = some d) (hi : l.base ≤ i)
    (hf : d.facets.get? Keyword.parent = some name) : d.parent = some (.declared p) ↔
      IsGreatest (l.model.bearers name (·.isOwn)) p ∧
        (d.kind = .experiment → ∃ e, l.model.get? p = some e ∧ e.kind = .experiment) := by
  have ⟨hfresh, hlink⟩ := l.fresh_of_le hi hd
  rw [hlink, Option.some.injEq, Placement.parentLink]
  cases hfresh.kind
  case inl hk =>
    have hno : d.isExperiment = false := by simp [Description.isExperiment, hk]
    simp only [hno, Bool.false_eq_true, if_false, l.speciesParent_eq_declared_iff hf, hk,
      reduceCtorEq, false_implies, and_true]
  case inr hk =>
    have hyes : d.isExperiment = true := by simp [Description.isExperiment, hk]
    simp only [hyes, if_true, l.experimentParent_eq_declared_iff hf, hk, true_implies]

end Assembler.Linking

-- What linking comes to can be computed.
theorem Assembler.exists_linking_of_any {a : Assembler} {r : Request} {primary : Element}
    {imports : List Element} {p : Model → Bool} (ht : r.trees = primary :: imports)
    (h : (do
      let declared := (Declarations.ofTrees r.trees).1
      let start ← (a.emptyModel r primary imports declared.facets).mapError .refused
      let grafted ← (r.grafts.entries.foldlM addGraft start).result
      let placement ← (Placement.ofDeclarations grafted declared).result
      placement.linkParents.mapError .refused :
        Except AssemblyError Model).toOption.any p = true) :
    ∃ l : a.Linking r, p l.model = true := by
  have ⟨model, h, hp⟩ := (Option.any_eq_true _ _).mp h
  have ⟨start, hs, h⟩ := bind_eq_ok_iff.mp (toOption_eq_some_iff.mp h)
  have ⟨grafted, hg, h⟩ := bind_eq_ok_iff.mp h
  have ⟨placement, hpl, h⟩ := bind_eq_ok_iff.mp h
  exact ⟨{
    primary, imports, trees_eq := ht, start
    start_eq := mapError_eq_ok_iff.mp hs
    grafted
    grafted_eq := hg
    placement
    placement_eq := hpl
    model
    model_eq := mapError_eq_ok_iff.mp h }, hp⟩

-- The kind of a child is respected exactly if the last own description of the name that it asks for
-- is of that kind, whatever else goes by the name before it.
theorem parents_by_name {a : Assembler} {r : Request} (l : a.Linking r) {i : Nat} {d : Description}
    {name : String} (h0 : i ≠ rootIndex) (hd : l.model.get? i = some d) (ho : d.isOwn = true)
    (hf : d.facets.get? Keyword.parent = some name) :
    let named := l.model.bearers name (·.isOwn)
    let kin := l.model.bearers name fun e => e.isOwn && e.kind = d.kind
    (∀ p, d.parent = some (.declared p) ↔
      IsGreatest named p ∧ (d.kind = .experiment → p ∈ kin)) ∧
    ((∃ p ∈ kin, d.parent = some (.declared p)) ↔ ∃ p ∈ kin, IsGreatest named p) ∧
    (kin.Nonempty → named ⊆ kin → ∃ p ∈ kin, d.parent = some (.declared p)) ∧
    (d.kind = .experiment → (∀ p ∈ kin, ¬ IsGreatest named p) →
      d.parent = some (.builtIn Keyword.experiment)) ∧
    (named = ∅ → d.parent = some (.builtIn
      (if d.kind = .experiment then Keyword.experiment
      else if (a.registry.species.get? name).isSome then name else Keyword.agent))) := by
  intro named kin
  have hi := (l.isOwn_iff (Nat.pos_of_ne_zero h0) hd).mp ho
  obtain ⟨hfresh, hlink⟩ := l.fresh_of_le hi hd
  have hkin (p : Nat) (hp : p ∈ named) :
      p ∈ kin ↔ ∃ e, l.model.get? p = some e ∧ e.kind = d.kind := by
    obtain ⟨hp0, e, he, hn, heo⟩ := hp
    simp [kin, bearers, hp0, he, hn, heo]
  have hkinOwn : kin ⊆ named := by
    rintro p ⟨hp0, e, he, hn, heo⟩
    exact ⟨hp0, e, he, hn, (Bool.and_eq_true _ _ ▸ heo).1⟩
  have hdeclared (p : Nat) : d.parent = some (.declared p) ↔
      IsGreatest named p ∧ (d.kind = .experiment → p ∈ kin) := by
    rw [l.parent_eq_declared_iff hd hi hf]
    refine and_congr_right fun hp => imp_congr_right fun hk => ?_
    rw [hkin p hp.1, hk]
  have hgeneric (hk : d.kind = .experiment) (hno : ∀ p ∈ kin, ¬ IsGreatest named p) :
      d.parent = some (.builtIn Keyword.experiment) := by
    have hyes : d.isExperiment = true := by simp [Description.isExperiment, hk]
    have hl : l.placement.parentLink d = l.placement.experimentParent d := by
      rw [Placement.parentLink, if_pos hyes]
    rw [hlink, hl, l.experimentParent_of_undeclared fun p hp => ?_]
    obtain ⟨hp, hpk⟩ := (hdeclared p).mp (hlink.trans (congrArg some (hl.trans hp)))
    exact hno p (hpk hk) hp
  refine ⟨hdeclared, ?respected, ?alone, hgeneric, ?unknown⟩
  case respected =>
    constructor
    case mp =>
      rintro ⟨p, hp, hd⟩
      exact ⟨p, hp, ((hdeclared p).mp hd).1⟩
    case mpr =>
      rintro ⟨p, hp, hg⟩
      exact ⟨p, hp, (hdeclared p).mpr ⟨hg, fun _ => hp⟩⟩
  case alone =>
    rintro ⟨q, hq⟩ hsub
    obtain ⟨p, hp⟩ := exists_isGreatest_bearers (hkinOwn hq)
    exact ⟨p, hsub hp.1, (hdeclared p).mpr ⟨hp, fun _ => hsub hp.1⟩⟩
  case unknown =>
    intro hno
    cases hfresh.kind
    case inl hk =>
      have hx : d.isExperiment = false := by simp [Description.isExperiment, hk]
      rw [hlink, Placement.parentLink, hx, hk]
      exact congrArg some (l.speciesParent_of_unknown hf hno)
    case inr hk =>
      rw [if_pos hk]
      exact hgeneric hk fun p _ hp => Set.eq_empty_iff_forall_notMem.mp hno p hp.1

-- A den in which an experiment goes by the name of a species.
def den : Element where
  kind := .model
  name := some "main"
  children := [
    { kind := .species, name := some "wolf" },
    { kind := .species, name := some "cub", facets := .ofList [("parent", "wolf")] },
    { kind := .experiment, name := some "wolf" }]

def denRequest : Request where
  primary := "main"
  trees := [den]

theorem parents_by_name_in_den : ∃ l : Assembler.Linking {} denRequest, ∃ d,
    l.model.get? 2 = some d ∧ d.isOwn = true ∧ d.facets.get? Keyword.parent = some "wolf" ∧
    d.kind = .species ∧ 1 ∈ l.model.bearers "wolf" (fun e => e.isOwn && e.kind = d.kind) ∧
    IsGreatest (l.model.bearers "wolf" (·.isOwn)) 3 ∧
    ¬ ∃ p ∈ l.model.bearers "wolf" (fun e => e.isOwn && e.kind = d.kind),
      d.parent = some (.declared p) := by
  have htrees : denRequest.trees = [den] := rfl
  obtain ⟨l, hfacts⟩ := Assembler.exists_linking_of_any (a := {}) htrees (p := fun m =>
      (m.get? 1).any (fun d => d.name = "wolf" ∧ d.isOwn = true ∧ d.kind = .species) &&
      (m.get? 2).any (fun d => d.isOwn = true ∧ d.kind = .species ∧
        d.facets.get? Keyword.parent = some "wolf" ∧ d.parent = some (.declared 3)) &&
      (m.get? 3).any (fun d => d.kind = .experiment)) (by decide +kernel)
  simp only [Bool.and_eq_true, Option.any_eq_true, decide_eq_true_eq] at hfacts
  obtain ⟨⟨⟨e, he, hn, heo, hek⟩, d, hd, ho, hk, hf, hp⟩, x, hx, hxk⟩ := hfacts
  obtain ⟨hdeclared, hkin, _⟩ := parents_by_name l (by decide) hd ho hf
  obtain ⟨hlast, _⟩ := (hdeclared 3).mp hp
  refine ⟨l, d, hd, ho, hf, hk, ⟨by decide, e, he, hn, by simp [heo, hek, hk]⟩, hlast, ?_⟩
  rw [hkin]
  rintro ⟨p, ⟨_, y, hy, _, hyk⟩, hg⟩
  cases hg.unique hlast
  cases hx.symm.trans hy
  simp [hxk, hk] at hyk

-- Two experiments of which one extends the other, as it seems.
def runs : Element where
  kind := .model
  name := some "main"
  children := [
    { kind := .experiment, name := some "base" },
    { kind := .experiment, name := some "other", children := [
      { kind := .species, name := some "base" }] },
    { kind := .experiment, name := some "run", facets := .ofList [("parent", "base")] }]

def runsRequest : Request where
  primary := "main"
  trees := [runs]

-- An experiment that names another one is left with the generic base, for a species of that name
-- which is nested in a third one.
theorem parent_missed_in_runs : ∃ l : Assembler.Linking {} runsRequest, ∃ d e,
    l.model.get? 1 = some e ∧ e.isOwn = true ∧ e.kind = .experiment ∧
    l.model.get? 4 = some d ∧ d.isOwn = true ∧ d.kind = .experiment ∧
    d.facets.get? Keyword.parent = some e.name ∧ d.parent = some (.builtIn Keyword.experiment) := by
  have htrees : runsRequest.trees = [runs] := rfl
  obtain ⟨l, hfacts⟩ := Assembler.exists_linking_of_any (a := {}) htrees (p := fun m =>
      (m.get? 1).any (fun e => e.isOwn = true ∧ e.kind = .experiment ∧ e.name = "base") &&
      (m.get? 4).any fun d => d.isOwn = true ∧ d.kind = .experiment ∧
        d.facets.get? Keyword.parent = some "base" ∧
        d.parent = some (.builtIn Keyword.experiment)) (by decide +kernel)
  simp only [Bool.and_eq_true, Option.any_eq_true, decide_eq_true_eq] at hfacts
  obtain ⟨⟨e, he, heo, hek, hn⟩, d, hd, ho, hk, hf, hp⟩ := hfacts
  exact ⟨l, d, e, he, heo, hek, hd, ho, hk, hn ▸ hf, hp⟩

end ModelAssembly
