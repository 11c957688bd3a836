import ModelAssembly.Proofs.Containment
import ModelAssembly.Proofs.Registry
/-!
Parents of a linked model. A placed description extends another placed one or a registered
description; a grafted one keeps to its own block.

Main statements: `parentLink_eq_declared` and `parentLink_eq_builtIn`; `get?_graft` says
where the grafts stand, and `exists_block` finds the graft of a grafted description; `inRange_model`
says that nothing points out of the model.
-/

namespace ModelAssembly

namespace Declarations

theorem isDeclaration_of_mem_placed {ds : List Declaration} {e : Element}
    (hd : ∀ D ∈ ds, D.element.isDeclaration = true) (h : e ∈ placed ds) : e.isDeclaration = true :=
  have ⟨D, hm, he⟩ := List.mem_flatMap.mp h
  DeclarationTree.isDeclaration_preorder (hd D hm) e he

end Declarations

namespace Description

-- What placing and linking leave of a description: a species or an experiment that is open and has
-- no members.
structure Fresh (d : Description) : Prop where
  isOwn : d.isOwn = true
  isBuiltIn : d.isBuiltIn = false
  isFinalized : d.isFinalized = false
  kind : d.kind = .species ∨ d.kind = .experiment
  members : d.members = ∅

theorem fresh_ofDeclaration {e : Element} (h : e.isDeclaration = true) (origin : String)
    (owner : Nat) (micro : List Nat) : (ofDeclaration e origin owner micro).Fresh := by
  refine ⟨rfl, rfl, rfl, ?_, rfl⟩
  simp only [Element.isDeclaration, Bool.or_eq_true] at h
  cases hk : e.kind <;>
    simp_all [ofDeclaration, new, DescriptionKind.ofElement?, ElementKind.isSpecies,
      ElementKind.isExperiment]

end Description

-- The generic base of a kind is registered as one of that kind.
theorem Registry.Built.base {r : Registry} {kind : DescriptionKind} (h : r.Built)
    (hk : kind ≠ .model) : ((r.table kind).get? kind.base).isSome := by
  cases kind
  case model => exact absurd rfl hk
  case species => exact h.agent
  case experiment => exact h.experiment

namespace Assembler.Linking

open Declarations

variable {a : Assembler} {r : Request} (l : Linking a r) {i p : Nat} {d : Description}
  {name : String}

theorem fresh_of_le (hi : l.base ≤ i) (hd : l.model.get? i = some d) :
    d.Fresh ∧ d.parent = some (l.placement.parentLink d) := by
  have ⟨e, d₀, he, ⟨origin, owner, micro, hd₀⟩, hl⟩ := l.places_of_le hi hd
  have hdecl : e.isDeclaration = true :=
    isDeclaration_of_mem_placed (fun _ => isDeclaration_of_mem_all) (List.mem_of_getElem? he)
  have hf := hd₀ ▸ Description.fresh_ofDeclaration hdecl origin owner micro
  subst hl
  exact ⟨⟨hf.isOwn, hf.isBuiltIn, hf.isFinalized, hf.kind, hf.members⟩, rfl⟩

theorem isOwn_iff (h0 : 0 < i) (hd : l.model.get? i = some d) : d.isOwn = true ↔ l.base ≤ i := by
  constructor
  case mp =>
    intro ho
    apply Nat.le_of_not_lt
    intro hlt
    rw [l.get?_of_lt h0 hlt] at hd
    simp [Model.isOwn_of_mem_graftBlock (List.mem_of_getElem? hd)] at ho
  case mpr => exact fun hi => (l.fresh_of_le hi hd).1.isOwn

theorem get?_indices (h : l.placement.indices.get? name = some p) :
    l.base ≤ p ∧ p < l.model.size := by
  rw [l.indices_placement] at h
  have ⟨k, e, hp, he, _⟩ := Placement.mem_named.mp (OrderedMap.mem_of_get?_ofList h)
  have hl := List.getElem?_eq_some_iff.mp he |>.1
  rw [size_model]
  omega

-- A declared parent is a placed description, and that of an experiment is an experiment.
theorem parentLink_eq_declared (h : l.placement.parentLink d = .declared p) :
    l.base ≤ p ∧ p < l.model.size ∧
      (d.kind = .experiment → ∃ e, l.model.get? p = some e ∧ e.kind = .experiment) := by
  unfold Placement.parentLink at h
  by_cases hx : d.isExperiment = true
  case pos =>
    rw [if_pos hx] at h
    simp only [Placement.experimentParent] at h
    split at h
    case h_1 j hj =>
      cases h
      obtain ⟨hb, hk⟩ := Option.filter_eq_some_iff.mp hj
      obtain ⟨requested, _, hi⟩ := Option.bind_eq_some_iff.mp hb
      obtain ⟨hle, hlt⟩ := l.get?_indices hi
      refine ⟨hle, hlt, fun _ => ?_⟩
      obtain ⟨e, he, hke⟩ := (Option.any_eq_true _ _).mp hk
      refine ⟨l.placement.link e, by simp [l.model_eq_map, he, hle], ?_⟩
      simpa [Placement.link, Description.isExperiment] using hke
    case h_2 => cases h
  case neg =>
    rw [if_neg hx] at h
    unfold Placement.speciesParent at h
    split at h
    case h_1 => cases h
    case h_2 requested _ =>
      split at h
      case h_1 j hj =>
        cases h
        obtain ⟨hle, hlt⟩ := l.get?_indices hj
        exact ⟨hle, hlt, fun hk => absurd hk (by simpa [Description.isExperiment] using hx)⟩
      case h_2 => split at h <;> cases h

theorem registry_placement : l.placement.model.registry = a.registry := by
  rw [← l.registry_model, l.model_eq_map, Model.registry_mapDescriptions]

-- A built-in parent is registered for the kind of the child.
theorem parentLink_eq_builtIn (hr : a.registry.Built)
    (h : l.placement.parentLink d = .builtIn name) :
    ((a.registry.table (if d.isExperiment then .experiment else .species)).get? name).isSome := by
  unfold Placement.parentLink at h
  split at h
  case isTrue hx =>
    rw [if_pos hx]
    simp only [Placement.experimentParent] at h
    split at h <;> cases h
    exact hr.experiment
  case isFalse hx =>
    rw [if_neg hx]
    unfold Placement.speciesParent at h
    split at h
    case h_1 =>
      cases h
      exact hr.agent
    case h_2 =>
      split at h
      case h_1 => cases h
      case h_2 =>
        split at h <;> cases h
        case isTrue hs => exact l.registry_placement ▸ hs
        case isFalse => exact hr.agent

-- The root extends a registered model.
theorem parent_root (hr : a.registry.Built) :
    ∃ name, l.model.root.parent = some (.builtIn name) ∧
      ((a.registry.table .model).get? name).isSome := by
  rw [l.root_model]
  refine ⟨_, rfl, ?_⟩
  cases hf : ((Declarations.ofTrees r.trees).1.facets.get? Keyword.parent).filter
    fun name => (a.registry.models.get? name).isSome
  case none => exact hr.rootModel
  case some name => exact (Option.filter_eq_some_iff.mp hf).2

theorem base_eq_sizes : l.base = 1 + Model.sizes r.grafts.entries := by
  rw [l.base_eq, Model.length_graftBlock]

-- Each graft stands behind those that come before it.
theorem get?_graft {before after : List (String × Model)} {name : String} {g : Model}
    (he : r.grafts.entries = before ++ (name, g) :: after) (hd : g.get? i = some d) :
    l.model.get? (1 + Model.sizes before + i) = some (d.shift (1 + Model.sizes before)
      (if i = Model.rootIndex then some Model.rootIndex else none) name) := by
  have hlt := Model.lt_size_of_get? hd
  have hb := l.base_eq_sizes
  have hsum : Model.sizes r.grafts.entries =
      Model.sizes before + (g.size + Model.sizes after) := he ▸ Model.sizes_append_cons
  have hblock : (Model.graftBlock 1 (before ++ (name, g) :: after))[Model.sizes before + i]? =
      (g.shifted (1 + Model.sizes before) name)[i]? := Model.getElem?_graftBlock hlt
  have hindex : 1 + Model.sizes before + i - 1 = Model.sizes before + i := by omega
  rw [l.get?_of_lt (by omega) (by omega), hindex, he, hblock, Model.getElem?_shifted, hd]
  rfl

-- A whole graft stands in its block.
theorem get?_block {before after : List (String × Model)} {g : String × Model}
    (he : r.grafts.entries = before ++ g :: after) {j : Nat} (hj : j < g.2.size) :
    l.model.get? (1 + Model.sizes before + j) = (g.2.get? j).map (·.shift (1 + Model.sizes before)
      (if j = Model.rootIndex then some Model.rootIndex else none) g.1) := by
  have ⟨d, hd⟩ := Model.get?_of_lt_size hj
  rw [l.get?_graft he hd, hd]
  rfl

-- Each grafted description stands in a block which holds a whole graft.
theorem exists_block (h0 : 0 < i) (hi : i < l.base) :
    ∃ g ∈ r.grafts.entries, ∃ offset k, 0 < offset ∧ offset + g.2.size ≤ l.base ∧ i = offset + k ∧
      k < g.2.size ∧ ∀ j, j < g.2.size → l.model.get? (offset + j) = (g.2.get? j).map
        (·.shift offset (if j = Model.rootIndex then some Model.rootIndex else none) g.1) := by
  have hb := l.base_eq_sizes
  have hlt : i - 1 < Model.sizes r.grafts.entries := by omega
  have ⟨before, g, after, k, he, hk, hlg⟩ := Model.exists_split_of_lt_sizes hlt
  have hsum : Model.sizes r.grafts.entries =
      Model.sizes before + (g.2.size + Model.sizes after) := he ▸ Model.sizes_append_cons
  have hg : g ∈ r.grafts.entries := he ▸ List.mem_append_right before List.mem_cons_self
  exact ⟨g, hg, 1 + Model.sizes before, k, by omega, by omega, by omega, hlg,
    fun j hj => l.get?_block he hj⟩

theorem lt_size_of_mem_micro_root {j : Nat} (hj : j ∈ l.model.root.micro) : j < l.model.size := by
  have hsize := l.size_model
  rw [l.root_model] at hj
  cases List.mem_append.mp hj
  case inl hj =>
    have hlt := (Model.lt_of_mem_graftRoots hj).2
    have hb := l.base_eq
    omega
  case inr hj => exact (l.mirrors.mem_range.1 j hj).2

theorem contained_model (hg : ∀ g ∈ r.grafts.entries, g.2.Contained) : l.model.Contained := by
  intro i d hd j hj
  cases Nat.lt_or_ge i l.base
  case inr hi =>
    have hlt := Model.lt_size_of_get? hd
    exact (l.mirrors.mem_range.2 i j hi hlt (Model.microOf_of_get? hd ▸ hj)).2
  case inl hi =>
    cases Nat.eq_zero_or_pos i
    case inl h0 =>
      cases h0
      cases (Model.get?_rootIndex l.model).symm.trans hd
      exact l.lt_size_of_mem_micro_root hj
    case inr h0 =>
      have hsize := l.size_model
      have ⟨g, hg', offset, k, _, hle, hik, hk, hblock⟩ := l.exists_block h0 hi
      have ⟨e, he⟩ := Model.get?_of_lt_size hk
      rw [hik, hblock k hk, he] at hd
      cases hd
      have ⟨c, hc, hcj⟩ := List.mem_map.mp hj
      have hlt := hg g hg' k e he c hc
      omega

theorem inRange_model (hg : ∀ g ∈ r.grafts.entries, g.2.InRange) : l.model.InRange := by
  refine (l.contained_model fun g hm => (hg g hm).contained).inRange fun i j ⟨d, hd, hp⟩ => ?_
  cases Nat.lt_or_ge i l.base
  case inr hi =>
    have hlink := (l.fresh_of_le hi hd).2
    exact (l.parentLink_eq_declared (Option.some.inj (hlink.symm.trans hp))).2.1
  case inl hi =>
    cases Nat.eq_zero_or_pos i
    case inl h0 =>
      cases h0
      cases (Model.get?_rootIndex l.model).symm.trans hd
      rw [l.root_model] at hp
      cases hp
    case inr h0 =>
      have hsize := l.size_model
      obtain ⟨g, hg', offset, k, _, hle, rfl, hk, hblock⟩ := l.exists_block h0 hi
      obtain ⟨c, rfl, hc⟩ := (Model.extends_iff_of_shift (hblock k hk)).mp ⟨d, hd, hp⟩
      have hlt := (hg g hg').parent k c hc
      omega

-- A walk through the model comes by every placed description.
theorem mem_walk (hi : l.base ≤ i) (hlt : i < l.model.size) :
    i ∈ l.model.walk Model.rootIndex := by
  have hall (i : Nat) : l.base ≤ i → i < l.model.size →
      i ∈ l.model.walkTo (i + 1) Model.rootIndex := by
    induction i using Nat.strongRecOn
    case ind i ih =>
      intro hi hlt
      have hb := l.base_pos
      cases l.mirrors.exists_owner hi hlt
      case inl hm =>
        have hroot : i ∈ l.model.microOf Model.rootIndex := by
          rw [Model.microOf_of_get? (Model.get?_rootIndex _), l.root_model]
          exact List.mem_append_right _ hm
        have h2 : i ∈ l.model.walkTo 2 Model.rootIndex :=
          Model.mem_walkTo_succ (by simp [Model.walkTo]) hroot
        exact Model.walkTo_mono h2 (by omega)
      case inr ho =>
        obtain ⟨o, ho, hoi, hm⟩ := ho
        have hw := Model.mem_walkTo_succ (ih o hoi ho (by omega)) hm
        exact Model.walkTo_mono hw (by omega)
  exact Model.walkTo_mono (hall i hi hlt) hlt

end Assembler.Linking
end ModelAssembly
