import ModelAssembly.Proofs.Linearization
/-!
Relabeling: the order that comes of a hierarchy does not depend on what the indices are. If all of
them are renamed and no two become one, then the cycles are broken in the same places, and the order
is the same but for the names.

Main statements: `order?_map` for hierarchies, `foldl_breakStep_map` for breaking cycles along a
walk.
-/

namespace ModelAssembly

namespace Hierarchy

-- `h` with other indices.
def map (f : Nat → Nat) (h : Hierarchy) : Hierarchy where
  vertices := h.vertices.map f
  edges := h.edges.map (Prod.map f f)

section

variable {f : Nat → Nat} (hf : f.Injective) {h : Hierarchy} {i p c target n : Nat}
  {done order : List Nat}

include hf

theorem addVertex_map : (h.map f).addVertex (f i) = (h.addVertex i).map f := by
  have hm : f i ∈ (h.map f).vertices ↔ i ∈ h.vertices := List.mem_map_of_injective hf
  unfold addVertex
  by_cases hi : i ∈ h.vertices
  case pos => rw [if_pos hi, if_pos (hm.mpr hi)]
  case neg =>
    rw [if_neg hi, if_neg (mt hm.mp hi)]
    simp [map]

theorem children_map : (h.map f).children (f i) = (h.children i).map f := by
  have hp : (fun e : Nat × Nat => e.1 == f i) ∘ Prod.map f f = fun e => e.1 == i := by
    funext e
    simp [hf.eq_iff]
  simp [children, map, List.filter_map, hp]

theorem reachesIn_map : (h.map f).reachesIn (f target) n (f i) = h.reachesIn target n i := by
  have hi (i : Nat) : (f i == f target) = (i == target) := by simp [hf.eq_iff]
  induction n generalizing i
  case zero => exact hi i
  case succ n ih => simp only [reachesIn, hi, children_map hf, List.any_map, Function.comp_def, ih]

theorem reaches_map : (h.map f).reaches (f i) (f target) = h.reaches i target := by
  have hl : (h.map f).vertices.length = h.vertices.length := List.length_map f
  rw [reaches, reaches, hl, reachesIn_map hf]

theorem addEdge_map : (h.map f).addEdge (f p) (f c) =
    ((h.addEdge p c).1.map f, (h.addEdge p c).2) := by
  unfold addEdge
  simp only [addVertex_map hf, reaches_map hf]
  split
  case isTrue => rfl
  case isFalse => simp [map]

omit hf in
theorem foldl_visit_map {cs : List Nat}
    (hv : ∀ done i, (h.map f).visit n (done.map f) (f i) = (h.visit n done i).map f) :
    (cs.map f).foldl ((h.map f).visit n) (done.map f) = (cs.foldl (h.visit n) done).map f := by
  rw [List.foldl_map]
  exact List.foldl_hom (List.map f) fun _ _ => hv _ _

theorem visit_map : (h.map f).visit n (done.map f) (f i) = (h.visit n done i).map f := by
  induction n generalizing done i
  case zero => rfl
  case succ n ih =>
    have hm : f i ∈ done.map f ↔ i ∈ done := List.mem_map_of_injective hf
    by_cases hi : i ∈ done
    case pos => rw [visit, visit, if_pos hi, if_pos (hm.mpr hi)]
    case neg =>
      rw [visit, visit, if_neg hi, if_neg (mt hm.mp hi), children_map hf,
        foldl_visit_map fun _ _ => ih, List.map_cons]

theorem traversal_map : (h.map f).traversal = h.traversal.map f := by
  have hl : (h.map f).vertices.length = h.vertices.length := List.length_map f
  rw [traversal, traversal, hl]
  change (h.vertices.map f).foldl _ (List.map f []) = _
  exact foldl_visit_map fun _ _ => visit_map hf

theorem idxOf_map : (order.map f).idxOf (f i) = order.idxOf i := by
  induction order
  case nil => rfl
  case cons x order hi =>
    have hx : (f x == f i) = (x == i) := by simp [hf.eq_iff]
    rw [List.map_cons, List.idxOf_cons, List.idxOf_cons, hx, hi]

theorem respects_map : (h.map f).Respects (order.map f) ↔ h.Respects order := by
  have hedges : (h.map f).edges = h.edges.map (Prod.map f f) := rfl
  rw [Respects, hedges, List.forall_mem_map]
  simp only [Prod.map_fst, Prod.map_snd, idxOf_map hf]
  rfl

theorem order?_map : (h.map f).order? = h.order?.map (List.map f) := by
  unfold order?
  rw [traversal_map hf]
  by_cases hr : h.Respects h.traversal
  case pos => rw [if_pos hr, if_pos ((respects_map hf).mpr hr), Option.map_some]
  case neg => rw [if_neg hr, if_neg (mt (respects_map hf).mp hr), Option.map_none]

end

end Hierarchy

section

variable {f : Nat → Nat} (hf : f.Injective) {kin kin' : Nat → Bool} {link link' : Nat → Option Nat}
  {s : Hierarchy × List Nat} {w : List Nat}

include hf

theorem breakStep_map {x : Nat} (hk : kin' (f x) = kin x) (hl : link' (f x) = (link x).map f) :
    breakStep kin' link' (s.1.map f, s.2.map f) (f x) =
      ((breakStep kin link s x).1.map f, (breakStep kin link s x).2.map f) := by
  have hm : f x ∈ s.2.map f ↔ x ∈ s.2 := List.mem_map_of_injective hf
  have hlink : (if f x ∈ s.2.map f then none else link' (f x)) =
      (if x ∈ s.2 then none else link x).map f := by
    by_cases hx : x ∈ s.2
    case pos => rw [if_pos hx, if_pos (hm.mpr hx), Option.map_none]
    case neg => rw [if_neg hx, if_neg (mt hm.mp hx), hl]
  unfold breakStep
  simp only [hk, hlink]
  cases kin x
  case false => rfl
  case true =>
    simp only [if_true, Hierarchy.addVertex_map hf]
    cases if x ∈ s.2 then none else link x
    case none => rfl
    case some p =>
      simp only [Option.map_some, Hierarchy.addEdge_map hf]
      split <;> simp

-- Breaking the cycles that are met along a walk.
theorem foldl_breakStep_map (hk : ∀ x ∈ w, kin' (f x) = kin x)
    (hl : ∀ x ∈ w, link' (f x) = (link x).map f) :
    (w.map f).foldl (breakStep kin' link') (s.1.map f, s.2.map f) =
      ((w.foldl (breakStep kin link) s).1.map f, (w.foldl (breakStep kin link) s).2.map f) := by
  induction w generalizing s
  case nil => rfl
  case cons x w hi =>
    rw [List.map_cons, List.foldl_cons, List.foldl_cons,
      breakStep_map hf (hk x List.mem_cons_self) (hl x List.mem_cons_self)]
    exact hi (fun y hy => hk y (List.mem_cons_of_mem x hy))
      fun y hy => hl y (List.mem_cons_of_mem x hy)

end

-- What is of another kind is passed by.
theorem foldl_breakStep_of_not_kin {kin : Nat → Bool} {link : Nat → Option Nat} {w : List Nat}
    {s : Hierarchy × List Nat} (hk : ∀ x ∈ w, kin x = false) :
    w.foldl (breakStep kin link) s = s := by
  induction w
  case nil => rfl
  case cons x w hi =>
    have hx : breakStep kin link s x = s := by
      rw [breakStep, hk x List.mem_cons_self]
      rfl
    rw [List.foldl_cons, hx]
    exact hi fun y hy => hk y (List.mem_cons_of_mem x hy)

end ModelAssembly
