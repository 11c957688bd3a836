import ModelAssembly.Assembly.Hierarchy
import Mathlib.Data.List.Chain
import Mathlib.Data.List.Perm.Subperm
import Mathlib.Logic.Relation
/-!
Hierarchies as graphs. A well-formed hierarchy has no cycle, so no path in it is longer than it has
vertices: the bounded searches through it find all there is.

Main statements: `reaches_iff` for the test before an edge is added, `addEdge_eq_of_path` and
`addEdge_eq_of_no_path` for what an added edge comes to, and `order?_eq` for the order of all
vertices.
-/

open Relation

namespace ModelAssembly.Hierarchy

variable {h : Hierarchy} {a b i p c target : Nat} {vs done : List Nat}

-- An edge leads from `a` to `b`.
def Edge (h : Hierarchy) (a b : Nat) : Prop := (a, b) ∈ h.edges

structure WellFormed (h : Hierarchy) : Prop where
  nodup : h.vertices.Nodup
  mem : ∀ a b, h.Edge a b → a ∈ h.vertices ∧ b ∈ h.vertices
  acyclic : ∀ i, ¬ TransGen h.Edge i i

theorem wellFormed_empty : WellFormed {} where
  nodup := .nil
  mem _ _ he := absurd he List.not_mem_nil
  acyclic _ hc :=
    have ⟨_, _, he⟩ := TransGen.tail'_iff.mp hc
    absurd he List.not_mem_nil

theorem mem_children : b ∈ h.children a ↔ h.Edge a b := by
  simp [children, Edge]

namespace WellFormed

-- Paths do not come back to a vertex.
theorem length_lt (hw : h.WellFormed) (hc : List.IsChain h.Edge (i :: vs)) (hi : i ∈ h.vertices) :
    vs.length < h.vertices.length := by
  have ht : (i :: vs).Pairwise (TransGen h.Edge) :=
    List.isChain_iff_pairwise.mp (hc.imp fun _ _ => TransGen.single)
  have hn : (i :: vs).Nodup := by
    apply ht.imp
    intro x y hxy he
    exact hw.acyclic x (he.symm ▸ hxy)
  have hs : i :: vs ⊆ h.vertices := by
    intro x hx
    cases List.mem_cons.mp hx
    case inl he => exact he ▸ hi
    case inr hm =>
      have hix := (List.pairwise_cons.mp ht).1 x hm
      have ⟨y, _, he⟩ := TransGen.tail'_iff.mp hix
      exact (hw.mem y x he).2
  exact (hn.subperm hs).length_le

end WellFormed

theorem reflTransGen_of_reachesIn {n : Nat} (hr : h.reachesIn target n i = true) :
    ReflTransGen h.Edge i target := by
  induction n generalizing i
  case zero =>
    have he : i = target := by simpa [reachesIn] using hr
    exact he ▸ .refl
  case succ n hi =>
    simp only [reachesIn, Bool.or_eq_true, beq_iff_eq, List.any_eq_true] at hr
    cases hr
    case inl he => exact he ▸ .refl
    case inr hc =>
      have ⟨c, hm, hr⟩ := hc
      exact .head (mem_children.mp hm) (hi hr)

theorem reachesIn_of_isChain {n : Nat} (hc : List.IsChain h.Edge (i :: vs)) (hl : vs.length ≤ n) :
    h.reachesIn ((i :: vs).getLast (List.cons_ne_nil i vs)) n i = true := by
  induction vs generalizing i n
  case nil => cases n <;> simp [reachesIn]
  case cons c vs hi =>
    have ⟨he, hc⟩ := List.isChain_cons_cons.mp hc
    cases n
    case zero => simp at hl
    case succ n =>
      have hr := hi hc (Nat.le_of_succ_le_succ hl)
      rw [List.getLast_cons_cons]
      simp only [reachesIn, Bool.or_eq_true, List.any_eq_true]
      exact .inr ⟨c, mem_children.mpr he, hr⟩

theorem reaches_iff (hw : h.WellFormed) (hi : i ∈ h.vertices) :
    h.reaches i target = true ↔ ReflTransGen h.Edge i target := by
  constructor
  case mp => exact reflTransGen_of_reachesIn
  case mpr =>
    intro hr
    have ⟨vs, hc, hl⟩ := List.exists_isChain_cons_of_relationReflTransGen hr
    have := reachesIn_of_isChain hc (Nat.le_of_lt (hw.length_lt hc hi))
    rwa [hl] at this

@[simp]
theorem edges_addVertex : (h.addVertex i).edges = h.edges := by
  unfold addVertex
  split <;> rfl

theorem edge_addVertex : (h.addVertex i).Edge = h.Edge := by
  funext a b
  simp [Edge]

@[simp]
theorem mem_vertices_addVertex : a ∈ (h.addVertex i).vertices ↔ a ∈ h.vertices ∨ a = i := by
  unfold addVertex
  split
  case isTrue hm => exact ⟨.inl, fun ha => ha.elim id fun he => he ▸ hm⟩
  case isFalse => simp

theorem WellFormed.addVertex (hw : h.WellFormed) (i : Nat) : (h.addVertex i).WellFormed where
  nodup := by
    unfold Hierarchy.addVertex
    split
    case isTrue => exact hw.nodup
    case isFalse hm =>
      refine List.nodup_append.mpr ⟨hw.nodup, by simp, ?_⟩
      intro x hx y hy he
      exact hm (List.mem_singleton.mp hy ▸ he ▸ hx)
  mem a b he := by
    have ⟨ha, hb⟩ := hw.mem a b (edge_addVertex ▸ he)
    simp [ha, hb]
  acyclic j hc := hw.acyclic j (edge_addVertex ▸ hc)

-- A path from the child back to the parent keeps the edge out.
theorem addEdge_eq_of_path (hw : h.WellFormed) (hr : ReflTransGen h.Edge c p) :
    h.addEdge p c = ((h.addVertex p).addVertex c, false) := by
  have hr' : ((h.addVertex p).addVertex c).reaches c p = true := by
    rw [reaches_iff ((hw.addVertex p).addVertex c) (by simp), edge_addVertex, edge_addVertex]
    exact hr
  simp [addEdge, hr']

-- With one more edge, from `p` to `c`, paths may use that edge.
theorem transGen_of_edge_append {hs : Hierarchy} (he : hs.edges = h.edges ++ [(p, c)])
    (ht : TransGen hs.Edge a b) :
    TransGen h.Edge a b ∨ ReflTransGen h.Edge a p ∧ ReflTransGen h.Edge c b := by
  have hor (x y : Nat) (hxy : hs.Edge x y) : h.Edge x y ∨ x = p ∧ y = c := by
    simpa [Edge, he] using hxy
  induction ht
  case single b hab =>
    cases hor a b hab
    case inl ho => exact .inl (.single ho)
    case inr hn =>
      have ⟨ha, hb⟩ := hn
      exact .inr ⟨ha ▸ .refl, hb ▸ .refl⟩
  case tail x b _ hxb hi =>
    cases hor x b hxb
    case inl ho =>
      cases hi
      case inl hax => exact .inl (.tail hax ho)
      case inr hn => exact .inr ⟨hn.1, .tail hn.2 ho⟩
    case inr hn =>
      have ⟨hx, hb⟩ := hn
      cases hi
      case inl hax => exact .inr ⟨hx ▸ hax.to_reflTransGen, hb ▸ .refl⟩
      case inr hm => exact .inr ⟨hm.1, hb ▸ .refl⟩

-- Otherwise the edge is added, and closes no cycle.
theorem addEdge_eq_of_no_path (hw : h.WellFormed) (hr : ¬ ReflTransGen h.Edge c p) :
    ∃ h', h.addEdge p c = (h', true) ∧ h'.WellFormed ∧ h'.edges = h.edges ++ [(p, c)] ∧
      h'.vertices = ((h.addVertex p).addVertex c).vertices := by
  let hv := (h.addVertex p).addVertex c
  have hwv : hv.WellFormed := (hw.addVertex p).addVertex c
  have hev : hv.edges = h.edges := by simp [hv]
  have hr' : hv.reaches c p = false := by
    rw [← Bool.not_eq_true, reaches_iff hwv (by simp [hv]), edge_addVertex, edge_addVertex]
    exact hr
  let h' : Hierarchy := { hv with edges := hv.edges ++ [(p, c)] }
  have he : h'.edges = h.edges ++ [(p, c)] := congrArg (· ++ [(p, c)]) hev
  refine ⟨h', by simp [addEdge, hv, hr', h'], ⟨hwv.nodup, ?mem, ?acyclic⟩, he, rfl⟩
  case mem =>
    intro a b hab
    have hor : h.Edge a b ∨ a = p ∧ b = c := by simpa [Edge, he] using hab
    cases hor
    case inl ho => exact hwv.mem a b (by simpa [Edge, hev] using ho)
    case inr hn =>
      have ⟨ha, hb⟩ := hn
      simp [h', hv, ha, hb]
  case acyclic =>
    intro i hc
    cases transGen_of_edge_append he hc
    case inl ho => exact hw.acyclic i ho
    case inr hn => exact hr (hn.2.trans hn.1)

-- What a search has put in order so far: with a vertex comes all that it leads to, behind it.
structure Good (h : Hierarchy) (done : List Nat) : Prop where
  nodup : done.Nodup
  subset : done ⊆ h.vertices
  closed : ∀ a b, a ∈ done → h.Edge a b → b ∈ done
  ordered : done.Pairwise fun a b => ¬ h.Edge b a

-- What a search that starts at `i` adds.
structure Visited (h : Hierarchy) (done : List Nat) (i : Nat) (after : List Nat) : Prop where
  good : h.Good after
  mem : i ∈ after
  mono : done ⊆ after
  reached : ∀ x ∈ after, x ∈ done ∨ ReflTransGen h.Edge i x

-- What searches that start at the children `cs` of `i`, one after the other, add.
structure VisitedBelow (h : Hierarchy) (done : List Nat) (i : Nat) (cs after : List Nat) :
    Prop where
  good : h.Good after
  mem : ∀ c ∈ cs, c ∈ after
  mono : done ⊆ after
  reached : ∀ x ∈ after, x ∈ done ∨ TransGen h.Edge i x

theorem visitedBelow_foldl {n : Nat} {cs : List Nat} (hs : ∀ c ∈ cs, h.Edge i c) (hg : h.Good done)
    (hv : ∀ c ∈ cs, ∀ done, h.Good done → h.Visited done c (h.visit n done c)) :
    h.VisitedBelow done i cs (cs.foldl (h.visit n) done) := by
  induction cs generalizing done
  case nil => exact ⟨hg, by simp, fun _ hx => hx, fun _ hx => .inl hx⟩
  case cons c cs hi =>
    have hc := hv c List.mem_cons_self done hg
    have hcs := hi (fun x hx => hs x (List.mem_cons_of_mem c hx)) hc.good
      fun x hx => hv x (List.mem_cons_of_mem c hx)
    refine ⟨hcs.good, ?mem, fun x hx => hcs.mono (hc.mono hx), ?reached⟩
    case mem =>
      intro x hx
      cases List.mem_cons.mp hx
      case inl hxc => exact hxc ▸ hcs.mono hc.mem
      case inr hxs => exact hcs.mem x hxs
    case reached =>
      intro x hx
      cases hcs.reached x hx
      case inr ht => exact .inr ht
      case inl hx' =>
        cases hc.reached x hx'
        case inl ho => exact .inl ho
        case inr ht => exact .inr (.head' (hs c List.mem_cons_self) ht)

-- What is found below `i` comes behind `i`.
theorem VisitedBelow.cons {after : List Nat} (hw : h.WellFormed) (hi : i ∈ h.vertices)
    (hd : i ∉ done) (hv : h.VisitedBelow done i (h.children i) after) :
    h.Visited done i (i :: after) := by
  have hn : i ∉ after := by
    intro hx
    cases hv.reached i hx
    case inl ho => exact hd ho
    case inr ht => exact hw.acyclic i ht
  refine ⟨⟨List.nodup_cons.mpr ⟨hn, hv.good.nodup⟩, ?subset, ?closed, ?ordered⟩,
    List.mem_cons_self, fun x hx => List.mem_cons_of_mem i (hv.mono hx), ?reached⟩
  case subset => exact List.cons_subset.mpr ⟨hi, hv.good.subset⟩
  case closed =>
    intro a b ha he
    cases List.mem_cons.mp ha
    case inl hai => exact List.mem_cons_of_mem i (hv.mem b (mem_children.mpr (hai ▸ he)))
    case inr ha => exact List.mem_cons_of_mem i (hv.good.closed a b ha he)
  case ordered =>
    exact List.pairwise_cons.mpr ⟨fun b hb he => hn (hv.good.closed b i hb he), hv.good.ordered⟩
  case reached =>
    intro x hx
    cases List.mem_cons.mp hx
    case inl he => exact .inr (he ▸ .refl)
    case inr hx =>
      cases hv.reached x hx
      case inl ho => exact .inl ho
      case inr ht => exact .inr ht.to_reflTransGen

theorem visited_visit (hw : h.WellFormed) {n : Nat} (hi : i ∈ h.vertices) (hg : h.Good done)
    (hn : ∀ vs, List.IsChain h.Edge (i :: vs) → vs.length < n) :
    h.Visited done i (h.visit n done i) := by
  induction n generalizing i done
  case zero => exact absurd (hn [] (.singleton i)) (Nat.not_lt_zero _)
  case succ n ih =>
    by_cases hd : i ∈ done
    case pos => simpa [visit, hd] using ⟨hg, hd, fun _ hx => hx, fun _ hx => .inl hx⟩
    case neg =>
      have hbelow :
          h.VisitedBelow done i (h.children i) ((h.children i).foldl (h.visit n) done) := by
        apply visitedBelow_foldl (fun c hc => mem_children.mp hc) hg
        intro c hc done hg
        have he := mem_children.mp hc
        apply ih (hw.mem i c he).2 hg
        intro vs hvs
        exact Nat.lt_of_succ_lt_succ (hn (c :: vs) (List.isChain_cons_cons.mpr ⟨he, hvs⟩))
      simp only [visit, hd, if_false]
      exact hbelow.cons hw hi hd

theorem good_traversal (hw : h.WellFormed) :
    h.Good h.traversal ∧ ∀ i, i ∈ h.traversal ↔ i ∈ h.vertices := by
  have hf (l : List Nat) (hl : l ⊆ h.vertices) :
      h.Good (l.foldl (h.visit h.vertices.length) []) ∧
        ∀ i ∈ l, i ∈ l.foldl (h.visit h.vertices.length) [] := by
    induction l using List.reverseRecOn
    case nil => exact ⟨⟨.nil, by simp, by simp, .nil⟩, by simp⟩
    case append_singleton l i ih =>
      have ⟨hg, hm⟩ := ih fun x hx => hl (List.mem_append_left _ hx)
      have hi : i ∈ h.vertices := hl (by simp)
      have hv := visited_visit hw hi hg fun vs hc => hw.length_lt hc hi
      rw [List.foldl_append]
      refine ⟨hv.good, ?_⟩
      intro x hx
      cases List.mem_append.mp hx
      case inl hx => exact hv.mono (hm x hx)
      case inr hx => exact List.mem_singleton.mp hx ▸ hv.mem
  have ⟨hg, hm⟩ := hf h.vertices fun _ hx => hx
  exact ⟨hg, fun i => ⟨fun hi => hg.subset hi, hm i⟩⟩

theorem respects_of_good (hw : h.WellFormed) {order : List Nat} (hg : h.Good order)
    (hm : ∀ i, i ∈ order ↔ i ∈ h.vertices) : h.Respects order := by
  intro e he
  have ⟨a, b⟩ := e
  have ha := (hm a).mpr (hw.mem a b he).1
  have hb := (hm b).mpr (hw.mem a b he).2
  have hla := List.idxOf_lt_length_iff.mpr ha
  have hlb := List.idxOf_lt_length_iff.mpr hb
  apply Nat.lt_of_not_le
  intro hle
  cases Nat.lt_or_eq_of_le hle
  case inl hlt =>
    have hp := List.pairwise_iff_getElem.mp hg.ordered _ _ hlb hla hlt
    rw [List.getElem_idxOf, List.getElem_idxOf] at hp
    exact hp he
  case inr heq =>
    have hab : b = a := (List.idxOf_inj hb).mp heq
    exact hw.acyclic a (.single (hab ▸ he))

-- The order of a well-formed hierarchy: all vertices, each once, parents before children.
theorem order?_eq (hw : h.WellFormed) :
    ∃ order, h.order? = some order ∧ order.Nodup ∧ (∀ i, i ∈ order ↔ i ∈ h.vertices) ∧
      h.Respects order := by
  have ⟨hg, hm⟩ := good_traversal hw
  have hr := respects_of_good hw hg hm
  exact ⟨h.traversal, by simp [order?, hr], hg.nodup, hm, hr⟩

end ModelAssembly.Hierarchy
