import ModelAssembly.Proofs.Containment
import ModelAssembly.Proofs.Hierarchy
import Mathlib.Data.Finset.Max
/-!
Breaking cycles. Each description has at most one parent, so a cycle of parents is told by any of
its members. The links are taken into a hierarchy one by one, in the order of a walk, and the one
that would close a cycle is left out.

Main statements: `Broken.step` keeps, along the walk, that exactly the last member of each cycle has
lost its link; `exists_unique_last` that every cycle has one such member.
-/

open Relation

namespace ModelAssembly

section

variable {f : Nat → Option Nat} {kin : Nat → Bool} {w pre : List Nat} {i j x p : Nat}

-- `b` is the parent of `a`.
def Leads (f : Nat → Option Nat) (a b : Nat) : Prop := f a = some b

-- `i` lies on a cycle all of which is met in `w`, and none of it after `i`.
structure LastOfCycle (f : Nat → Option Nat) (w : List Nat) (i : Nat) : Prop where
  mem : i ∈ w
  cycle : TransGen (Leads f) i i
  last : ∀ j, TransGen (Leads f) i j → w.idxOf j ≤ w.idxOf i

namespace Leads

theorem unique {a b c : Nat} (hb : Leads f a b) (hc : Leads f a c) : b = c :=
  Option.some.inj (hb.symm.trans hc)

theorem eq_of_self (hi : Leads f i i) (hj : TransGen (Leads f) i j) : j = i := by
  induction hj
  case single h => exact h.unique hi
  case tail _ h ih => exact (ih ▸ h).unique hi

-- What a member of a cycle leads to leads back to it.
theorem back (hi : TransGen (Leads f) i i) (hj : ReflTransGen (Leads f) i j) :
    ReflTransGen (Leads f) j i := by
  induction hj
  case refl => exact .refl
  case tail x y _ hxy hx =>
    cases ReflTransGen.cases_head hx
    case inl he =>
      have ⟨z, hz, hzi⟩ := TransGen.head'_iff.mp hi
      have hy : z = y := hz.unique (he ▸ hxy)
      exact hy ▸ hzi
    case inr hz =>
      have ⟨z, hxz, hzi⟩ := hz
      exact hxz.unique hxy ▸ hzi

theorem cycle_of_mem (hi : TransGen (Leads f) i i) (hj : TransGen (Leads f) i j) :
    TransGen (Leads f) j j :=
  .trans_right (back hi hj.to_reflTransGen) hj

end Leads

theorem lastOfCycle_concat : LastOfCycle f (w ++ [x]) i ↔
    LastOfCycle f w i ∨
      i = x ∧ x ∉ w ∧ TransGen (Leads f) x x ∧ ∀ j, TransGen (Leads f) x j → j ∈ w ∨ j = x := by
  have hidx (j : Nat) : (w ++ [x]).idxOf j =
      if j ∈ w then w.idxOf j else if j = x then w.length else w.length + 1 := by
    rw [List.idxOf_append]
    by_cases hj : j = x
    case pos => simp [hj]
    case neg =>
      simp [hj, Nat.add_comm]
  constructor
  case mp =>
    intro h
    by_cases hi : i ∈ w
    case pos =>
      refine .inl ⟨hi, h.cycle, ?_⟩
      intro j hj
      have hl := h.last j hj
      rw [hidx, hidx, if_pos hi] at hl
      have hlt := List.idxOf_lt_length_iff.mpr hi
      by_cases hjw : j ∈ w
      case pos => simpa [hjw] using hl
      case neg =>
        rw [if_neg hjw] at hl
        split at hl <;> omega
    case neg =>
      have hx : i = x := by simpa [hi] using h.mem
      subst hx
      refine .inr ⟨rfl, hi, h.cycle, ?_⟩
      intro j hj
      have hl := h.last j hj
      rw [hidx, hidx, if_neg hi, if_pos rfl] at hl
      by_cases hjw : j ∈ w
      case pos => exact .inl hjw
      case neg =>
        by_cases hji : j = i
        case pos => exact .inr hji
        case neg =>
          simp only [hjw, hji, if_false] at hl
          omega
  case mpr =>
    intro h
    cases h
    case inl h =>
      refine ⟨List.mem_append_left _ h.mem, h.cycle, ?_⟩
      intro j hj
      have hl := h.last j hj
      have hlt := List.idxOf_lt_length_iff.mpr h.mem
      have hjw : j ∈ w := List.idxOf_lt_length_iff.mp (Nat.lt_of_le_of_lt hl hlt)
      simpa [hidx, hjw, h.mem] using hl
    case inr h =>
      have ⟨hi, hx, hc, hj⟩ := h
      subst hi
      refine ⟨by simp, hc, ?_⟩
      intro j hij
      rw [hidx, hidx, if_neg hx, if_pos rfl]
      cases hj j hij
      case inl hm => simpa [hm] using List.idxOf_le_length
      case inr he => simp [he, hx]

-- Each cycle that is met as a whole has exactly one last member.
theorem exists_unique_last (hi : TransGen (Leads f) i i)
    (hw : ∀ j, TransGen (Leads f) i j → j ∈ w) :
    ∃ j, (TransGen (Leads f) i j ∧ LastOfCycle f w j) ∧
      ∀ k, TransGen (Leads f) i k ∧ LastOfCycle f w k → k = j := by
  -- The member with the greatest index.
  have ⟨j, hj, hmax⟩ : ∃ j, TransGen (Leads f) i j ∧
      ∀ k, TransGen (Leads f) i k → w.idxOf k ≤ w.idxOf j := by
    classical
    let members := w.toFinset.filter (TransGen (Leads f) i)
    have hn : members.Nonempty := ⟨i, by simpa [members] using ⟨hw i hi, hi⟩⟩
    have ⟨j, hj, hmax⟩ := members.exists_max_image w.idxOf hn
    refine ⟨j, (Finset.mem_filter.mp hj).2, fun k hk => hmax k ?_⟩
    simpa [members] using ⟨hw k hk, hk⟩
  refine ⟨j, ⟨hj, hw j hj, Leads.cycle_of_mem hi hj, fun k hk => hmax k (hj.trans hk)⟩, ?_⟩
  intro k ⟨hk, hl⟩
  have hkj : TransGen (Leads f) k j := .trans_right (Leads.back hi hk.to_reflTransGen) hj
  have hle := hl.last j hkj
  exact (List.idxOf_inj hl.mem).mp (Nat.le_antisymm (hmax k hk) hle)

-- Takes `x` into a hierarchy, with its link unless that would close a cycle or was cut before.
def breakStep (kin : Nat → Bool) (f : Nat → Option Nat) (s : Hierarchy × List Nat) (x : Nat) :
    Hierarchy × List Nat :=
  if kin x then
    let h := s.1.addVertex x
    match if x ∈ s.2 then none else f x with
    | none => (h, s.2)
    | some p => ((h.addEdge p x).1, if (h.addEdge p x).2 then s.2 else s.2 ++ [x])
  else
    s

-- The hierarchy `s.1` holds the links met in `pre`, those of `s.2` left out.
structure Broken (kin : Nat → Bool) (f : Nat → Option Nat) (pre : List Nat)
    (s : Hierarchy × List Nat) : Prop where
  wellFormed : s.1.WellFormed
  edge : ∀ a b, s.1.Edge a b ↔ b ∈ pre ∧ f b = some a ∧ b ∉ s.2
  vertex : ∀ i, i ∈ s.1.vertices ↔ (i ∈ pre ∧ kin i) ∨ ∃ c ∈ pre, f c = some i
  cut : ∀ i, i ∈ s.2 ↔ LastOfCycle f pre i
  sublist : s.2.Sublist pre
  nodup : s.2.Nodup

namespace Broken

theorem nil : Broken kin f [] ({}, []) where
  wellFormed := Hierarchy.wellFormed_empty
  edge _ _ := by simp [Hierarchy.Edge]
  vertex _ := by simp
  cut i := ⟨by simp, fun h => absurd h.mem List.not_mem_nil⟩
  sublist := .slnil
  nodup := .nil

variable {s : Hierarchy × List Nat}

-- A path in the hierarchy goes down what the links go up.
theorem leads_of_edge (hb : Broken kin f pre s) {a b : Nat}
    (hr : ReflTransGen s.1.Edge a b) : ReflTransGen (Leads f) b a := by
  induction hr
  case refl => exact .refl
  case tail y z _ hyz hi => exact .head ((hb.edge y z).mp hyz).2.1 hi

-- The link of `x` would close a cycle just in case the rest of a cycle through `x` was met.
theorem path_iff (hb : Broken kin f pre s) (hx : x ∉ pre) (hp : f x = some p) :
    ReflTransGen s.1.Edge x p ↔
      TransGen (Leads f) x x ∧ ∀ j, TransGen (Leads f) x j → j ∈ pre ∨ j = x := by
  constructor
  case mp =>
    intro hr
    refine ⟨.head' hp (hb.leads_of_edge hr), ?_⟩
    -- Whatever `x` leads to is reached from `x` in the hierarchy.
    have hall (j) (hj : TransGen (Leads f) x j) : ReflTransGen s.1.Edge x j := by
      induction hj
      case single j hj => exact Leads.unique hp hj ▸ hr
      case tail y z _ hyz hi =>
        cases ReflTransGen.cases_tail hi
        case inl he =>
          have hz : p = z := Leads.unique hp (he ▸ hyz)
          exact hz ▸ hr
        case inr hv =>
          have ⟨v, hxv, hvy⟩ := hv
          have hz : v = z := Leads.unique ((hb.edge v y).mp hvy).2.1 hyz
          exact hz ▸ hxv
    intro j hj
    cases ReflTransGen.cases_tail (hall j hj)
    case inl he => exact .inr he
    case inr hv =>
      have ⟨v, _, hvj⟩ := hv
      exact .inl ((hb.edge v j).mp hvj).1
  case mpr =>
    intro ⟨hc, hall⟩
    -- No link of the cycle has been cut, since `x` was not met.
    have hedge (y z) (hxy : TransGen (Leads f) x y) (hyz : Leads f y z) (hy : y ≠ x) :
        s.1.Edge z y := by
      have hm := (hall y hxy).resolve_right hy
      refine (hb.edge z y).mpr ⟨hm, hyz, ?_⟩
      intro hcut
      have hl := (hb.cut y).mp hcut
      have hyx : TransGen (Leads f) y x := by
        cases TransGen.head'_iff.mp (Leads.cycle_of_mem hc hxy)
        case intro v hv =>
          have hr := Leads.back hc hxy.to_reflTransGen
          cases ReflTransGen.cases_head hr
          case inl he => exact absurd he hy
          case inr hv' =>
            have ⟨u, hyu, hux⟩ := hv'
            exact .head' hyu hux
      have hle := hl.last x hyx
      have hlt := List.idxOf_lt_length_iff.mpr hl.mem
      exact hx (List.idxOf_lt_length_iff.mp (Nat.lt_of_le_of_lt hle hlt))
    have hback (y) (hxy : TransGen (Leads f) x y) (hyx : ReflTransGen (Leads f) y x) :
        ReflTransGen s.1.Edge x y := by
      induction hyx using ReflTransGen.head_induction_on
      case refl => exact .refl
      case head y z hyz _ hi =>
        by_cases hy : y = x
        case pos => exact hy ▸ .refl
        case neg => exact .tail (hi (.tail hxy hyz)) (hedge y z hxy hyz hy)
    have hxp : TransGen (Leads f) x p := .single hp
    exact hback p hxp (Leads.back hc hxp.to_reflTransGen)

-- A description that has no link, or has lost it, comes in without an edge.
theorem step_of_unlinked (hb : Broken kin f pre s) (hx : f x = none ∨ x ∈ s.2) {h : Hierarchy}
    (hw : h.WellFormed) (he : h.Edge = s.1.Edge)
    (hv : ∀ i, i ∈ h.vertices ↔ i ∈ s.1.vertices ∨ i = x ∧ kin x) :
    Broken kin f (pre ++ [x]) (h, s.2) where
  wellFormed := hw
  edge a b := by
    rw [he, hb.edge]
    constructor
    case mp => exact fun ⟨hm, hf, hc⟩ => ⟨List.mem_append_left _ hm, hf, hc⟩
    case mpr =>
      intro ⟨hm, hf, hc⟩
      refine ⟨?_, hf, hc⟩
      cases List.mem_append.mp hm
      case inl hm => exact hm
      case inr hbx =>
        have hbx := List.mem_singleton.mp hbx
        cases hx
        case inl hn => exact absurd (hbx ▸ hf) (by simp [hn])
        case inr hm => exact absurd (hbx ▸ hm) hc
  vertex i := by
    rw [hv, hb.vertex]
    have hpar : (∃ c ∈ pre ++ [x], f c = some i) ↔ ∃ c ∈ pre, f c = some i := by
      constructor
      case mp =>
        intro ⟨c, hm, hf⟩
        cases List.mem_append.mp hm
        case inl hm => exact ⟨c, hm, hf⟩
        case inr hc =>
          have hc := List.mem_singleton.mp hc
          cases hx
          case inl hn => exact absurd (hc ▸ hf) (by simp [hn])
          case inr hm => exact ⟨c, hc ▸ hb.sublist.subset hm, hf⟩
      case mpr => exact fun ⟨c, hm, hf⟩ => ⟨c, List.mem_append_left _ hm, hf⟩
    rw [hpar, List.mem_append, List.mem_singleton]
    constructor
    case mp => rintro ((⟨hm, hk⟩ | hc) | ⟨hi, hk⟩) <;> simp_all
    case mpr => rintro (⟨hm | hi, hk⟩ | hc) <;> simp_all
  cut i := by
    rw [hb.cut, lastOfCycle_concat]
    refine ⟨.inl, fun h => h.elim id fun ⟨_, hm, hc, _⟩ => ?_⟩
    cases hx
    case inl hn =>
      have ⟨_, hl, _⟩ := TransGen.head'_iff.mp hc
      exact absurd hl (by simp [Leads, hn])
    case inr hx => exact absurd (hb.sublist.subset hx) hm
  sublist := hb.sublist.trans (List.sublist_append_left pre [x])
  nodup := hb.nodup

-- Either way, both ends of a link become vertices.
theorem vertex_of_linked (hb : Broken kin f pre s) (hk : kin x) (hp : f x = some p) :
    i ∈ (((s.1.addVertex x).addVertex p).addVertex x).vertices ↔
      (i ∈ pre ++ [x] ∧ kin i) ∨ ∃ c ∈ pre ++ [x], f c = some i := by
  simp only [Hierarchy.mem_vertices_addVertex, hb.vertex, List.mem_append, List.mem_singleton]
  constructor
  case mp =>
    rintro ((((⟨hm, hi⟩ | ⟨c, hm, hf⟩) | hi) | hi) | hi)
    · exact .inl ⟨.inl hm, hi⟩
    · exact .inr ⟨c, .inl hm, hf⟩
    · exact .inl ⟨.inr hi, hi ▸ hk⟩
    · exact .inr ⟨x, .inr rfl, hi ▸ hp⟩
    · exact .inl ⟨.inr hi, hi ▸ hk⟩
  case mpr =>
    rintro (⟨hm | hi, hki⟩ | ⟨c, hm | hc, hf⟩)
    · exact .inl (.inl (.inl (.inl ⟨hm, hki⟩)))
    · exact .inr hi
    · exact .inl (.inl (.inl (.inr ⟨c, hm, hf⟩)))
    · exact .inl (.inr (Leads.unique hf (hc ▸ hp)))

-- A link that would close a cycle is cut.
theorem step_of_path (hb : Broken kin f pre s) (hk : kin x) (hx : x ∉ s.2) (hp : f x = some p)
    (hr : ReflTransGen s.1.Edge x p) :
    Broken kin f (pre ++ [x]) (((s.1.addVertex x).addVertex p).addVertex x, s.2 ++ [x]) := by
  have hxp : x ∉ pre := by
    intro hm
    have hpx : s.1.Edge p x := (hb.edge p x).mpr ⟨hm, hp, hx⟩
    exact hb.wellFormed.acyclic p (.head' hpx hr)
  have hcyc := (hb.path_iff hxp hp).mp hr
  refine ⟨((hb.wellFormed.addVertex x).addVertex p).addVertex x, ?edge,
    fun _ => hb.vertex_of_linked hk hp, ?cut, hb.sublist.append (.refl [x]), ?nodup⟩
  case edge =>
    intro a b
    rw [Hierarchy.edge_addVertex, Hierarchy.edge_addVertex, Hierarchy.edge_addVertex, hb.edge]
    simp only [List.mem_append, List.mem_singleton, not_or]
    constructor
    case mp =>
      rintro ⟨hm, hf, hc⟩
      exact ⟨.inl hm, hf, hc, fun hbx => hxp (hbx ▸ hm)⟩
    case mpr =>
      rintro ⟨hm, hf, hc, hbx⟩
      exact ⟨hm.resolve_right hbx, hf, hc⟩
  case cut =>
    intro i
    simp only [List.mem_append, List.mem_singleton, hb.cut, lastOfCycle_concat]
    exact or_congr_right ⟨fun hi => ⟨hi, hxp, hcyc⟩, fun hi => hi.1⟩
  case nodup =>
    refine List.nodup_append.mpr ⟨hb.nodup, by simp, ?_⟩
    intro a ha b hbx hab
    exact hx (List.mem_singleton.mp hbx ▸ hab ▸ ha)

-- Any other link comes in as an edge.
theorem step_of_no_path (hb : Broken kin f pre s) (hk : kin x) (hx : x ∉ s.2) (hp : f x = some p)
    (hr : ¬ ReflTransGen s.1.Edge x p) {h : Hierarchy} (hw : h.WellFormed)
    (hedges : ∀ a b, h.Edge a b ↔ s.1.Edge a b ∨ a = p ∧ b = x)
    (hverts : h.vertices = (((s.1.addVertex x).addVertex p).addVertex x).vertices) :
    Broken kin f (pre ++ [x]) (h, s.2) := by
  refine ⟨hw, ?edge, fun _ => hverts ▸ hb.vertex_of_linked hk hp, ?cut,
    hb.sublist.trans (List.sublist_append_left pre [x]), hb.nodup⟩
  case edge =>
    intro a b
    rw [hedges, hb.edge, List.mem_append, List.mem_singleton]
    constructor
    case mp =>
      rintro (⟨hm, hf, hc⟩ | ⟨ha, hbx⟩)
      · exact ⟨.inl hm, hf, hc⟩
      · exact ⟨.inr hbx, ha ▸ hbx ▸ hp, hbx ▸ hx⟩
    case mpr =>
      intro ⟨hm, hf, hc⟩
      cases hm
      case inl hm => exact .inl ⟨hm, hf, hc⟩
      case inr hbx => exact .inr ⟨Leads.unique (hbx ▸ hf) hp, hbx⟩
  case cut =>
    intro i
    rw [hb.cut, lastOfCycle_concat]
    refine ⟨.inl, fun h => h.elim id fun ⟨_, hm, hc⟩ => ?_⟩
    exact absurd ((hb.path_iff hm hp).mpr hc) hr

theorem step_of_linked (hb : Broken kin f pre s) (hk : kin x) (hx : x ∉ s.2) (hp : f x = some p) :
    Broken kin f (pre ++ [x]) (((s.1.addVertex x).addEdge p x).1,
      if ((s.1.addVertex x).addEdge p x).2 then s.2 else s.2 ++ [x]) := by
  have hw := hb.wellFormed.addVertex x
  have he : (s.1.addVertex x).Edge = s.1.Edge := Hierarchy.edge_addVertex
  by_cases hr : ReflTransGen s.1.Edge x p
  case pos =>
    rw [Hierarchy.addEdge_eq_of_path hw (he ▸ hr)]
    exact hb.step_of_path hk hx hp hr
  case neg =>
    have ⟨h, hadd, hw', hedges, hverts⟩ := Hierarchy.addEdge_eq_of_no_path hw (he ▸ hr)
    have hor (a b : Nat) : h.Edge a b ↔ s.1.Edge a b ∨ a = p ∧ b = x := by
      rw [← he]
      simp [Hierarchy.Edge, hedges]
    rw [hadd]
    exact hb.step_of_no_path hk hx hp hr hw' hor hverts

theorem step (hf : ∀ i p, f i = some p → kin i) (hb : Broken kin f pre s) (x : Nat) :
    Broken kin f (pre ++ [x]) (breakStep kin f s x) := by
  unfold breakStep
  by_cases hk : kin x
  case neg =>
    have hn : f x = none := by
      cases hx : f x
      case none => rfl
      case some p => exact absurd (hf x p hx) hk
    rw [if_neg hk]
    exact hb.step_of_unlinked (.inl hn) hb.wellFormed rfl (by simp [hk])
  case pos =>
    rw [if_pos hk]
    have hu (hx : f x = none ∨ x ∈ s.2) : Broken kin f (pre ++ [x]) (s.1.addVertex x, s.2) :=
      hb.step_of_unlinked hx (hb.wellFormed.addVertex x) Hierarchy.edge_addVertex (by simp [hk])
    by_cases hx : x ∈ s.2
    case pos => simpa [hx] using hu (.inr hx)
    case neg =>
      cases hp : f x
      case none => simpa [hx, hp] using hu (.inl hp)
      case some p => simpa [hx, hp] using hb.step_of_linked hk hx hp

-- What a whole walk comes to.
theorem foldl (hf : ∀ i p, f i = some p → kin i) (w : List Nat) :
    Broken kin f w (w.foldl (breakStep kin f) ({}, [])) := by
  induction w using List.reverseRecOn
  case nil => exact nil
  case append_singleton w x hi =>
    rw [List.foldl_append]
    exact hi.step hf x

end Broken

-- Where every cycle has lost a link, there is none left.
theorem acyclic_of_cut {cut : List Nat} (hc : ∀ i, TransGen (Leads f) i i →
    ∃ j, TransGen (Leads f) i j ∧ j ∈ cut) (i : Nat) :
    ¬ TransGen (Leads fun i => if i ∈ cut then none else f i) i i := by
  let g := fun i => if i ∈ cut then none else f i
  intro hg
  have hsub {a b : Nat} (hab : Leads g a b) : Leads f a b ∧ a ∉ cut := by
    by_cases ha : a ∈ cut <;> simp_all [Leads, g]
  have hf : TransGen (Leads f) i i := hg.lift id fun _ _ hab => (hsub hab).1
  -- The cycle of `f` is the cycle of `g`, on which no link is cut.
  have hnext {x y : Nat} (hix : ReflTransGen (Leads g) i x) (hxy : Leads f x y) : Leads g x y := by
    have hx : TransGen (Leads g) x x := by
      cases ReflTransGen.cases_head (Leads.back hg hix)
      case inl he => exact he ▸ hg
      case inr hv =>
        have ⟨v, hxv, hvi⟩ := hv
        exact .head' hxv (hvi.trans hix)
    have ⟨v, hxv, _⟩ := TransGen.head'_iff.mp hx
    exact Leads.unique (hsub hxv).1 hxy ▸ hxv
  have hall {j : Nat} (hj : TransGen (Leads f) i j) : TransGen (Leads g) i j := by
    induction hj
    case single y hy => exact .single (hnext .refl hy)
    case tail y z _ hyz hi => exact .tail hi (hnext hi.to_reflTransGen hyz)
  have ⟨j, hj, hcut⟩ := hc i hf
  have hgj := hall hj
  have ⟨v, hjv, _⟩ := TransGen.head'_iff.mp (Leads.cycle_of_mem hg hgj)
  exact (hsub hjv).2 hcut

end

end ModelAssembly
