import ModelAssembly.Proofs.Hierarchy
import Mathlib.Data.Finset.Card
/-!
The depth-first search with a stack, for hierarchies that come of any calls. A vertex is discovered
when it is first on top of the stack, and finished when it is on top again with all below it
finished; it may be on the stack more than once. The search ends on any hierarchy. Where nothing
leads back to itself, what is discovered but not finished lies above the top of the stack, so the
search goes on as `visit` does.

Main statements: `searchFrom_cons` for one vertex on the stack, `search_eq_traversal`, and
`order_of_operations` for a hierarchy that starts empty and takes on vertices and edges.
-/

open Relation

namespace ModelAssembly.Hierarchy

variable {h : Hierarchy} {i p c x n : Nat} {discovered finished stack cs : List Nat}

-- What can still be discovered: what is on the stack, or comes onto it by an edge.
def undiscovered (h : Hierarchy) (discovered stack : List Nat) : Finset Nat :=
  (stack ++ h.edges.map Prod.snd).toFinset \ discovered.toFinset

theorem mem_undiscovered :
    x ∈ h.undiscovered discovered stack ↔ (x ∈ stack ∨ ∃ a, h.Edge a x) ∧ x ∉ discovered := by
  simp [undiscovered, Edge]

theorem undiscovered_subset_cons :
    h.undiscovered discovered stack ⊆ h.undiscovered discovered (i :: stack) := by
  intro x hx
  have ⟨hs, hd⟩ := mem_undiscovered.mp hx
  exact mem_undiscovered.mpr ⟨hs.imp_left (List.mem_cons_of_mem i), hd⟩

-- All that a vertex brings onto the stack comes there by an edge, and the vertex is discovered.
theorem undiscovered_ssubset (hi : i ∉ discovered) (hc : ∀ c ∈ cs, h.Edge i c) :
    h.undiscovered (i :: discovered) (cs ++ i :: stack) ⊂
      h.undiscovered discovered (i :: stack) := by
  refine Finset.ssubset_iff_of_subset ?sub |>.mpr ⟨i, ?mem, ?notMem⟩
  case sub =>
    intro x hx
    have ⟨hs, hd⟩ := mem_undiscovered.mp hx
    have hd : x ∉ discovered := fun hx => hd (List.mem_cons_of_mem i hx)
    apply mem_undiscovered.mpr
    cases hs
    case inr he => exact ⟨.inr he, hd⟩
    case inl hs =>
      cases List.mem_append.mp hs
      case inl hx => exact ⟨.inr ⟨i, hc x hx⟩, hd⟩
      case inr hx => exact ⟨.inl hx, hd⟩
  case mem => exact mem_undiscovered.mpr ⟨.inl List.mem_cons_self, hi⟩
  case notMem => exact fun hm => (mem_undiscovered.mp hm).2 List.mem_cons_self

-- What is discovered and what is finished when the stack is empty. The last to be finished stands
-- in front.
def searchFrom (h : Hierarchy) (discovered finished : List Nat) : List Nat → List Nat × List Nat
  | [] => (discovered, finished)
  | i :: stack =>
    if i ∈ discovered then
      h.searchFrom discovered (if i ∈ finished then finished else i :: finished) stack
    else
      h.searchFrom (i :: discovered) finished
        ((h.children i).filter (· ∉ i :: discovered) ++ i :: stack)
termination_by stack => ((h.undiscovered discovered stack).card, stack.length)
decreasing_by
  · have hs : h.undiscovered discovered stack ⊆ h.undiscovered discovered (i :: stack) :=
      undiscovered_subset_cons
    cases Nat.lt_or_eq_of_le (Finset.card_le_card hs)
    case inl hlt => exact .left _ _ hlt
    case inr heq => exact heq ▸ .right _ (Nat.lt_succ_self stack.length)
  · rename_i hi
    have hc : ∀ c ∈ (h.children i).filter (· ∉ i :: discovered), h.Edge i c :=
      fun c hc => mem_children.mp (List.mem_filter.mp hc).1
    exact .left _ _ (Finset.card_lt_card (undiscovered_ssubset hi hc))

-- A search from `i`, unless one before came across it.
def searchNext (h : Hierarchy) (state : List Nat × List Nat) (i : Nat) : List Nat × List Nat :=
  if i ∈ state.1 then state else h.searchFrom state.1 state.2 [i]

-- All vertices, with the last to be finished in front.
def search (h : Hierarchy) : List Nat := (h.vertices.foldl h.searchNext ([], [])).2

-- Before `i` is taken from the stack: what is discovered but not finished leads to `i`.
structure Searching (h : Hierarchy) (discovered finished : List Nat) (i : Nat) : Prop where
  good : h.Good finished
  subset : finished ⊆ discovered
  leads : ∀ x ∈ discovered, x ∉ finished → TransGen h.Edge x i

-- From the stack with `cs` on top, the search comes to the rest of the stack with `finished'`
-- finished, and nothing else discovered.
def Passes (h : Hierarchy) (discovered finished cs finished' : List Nat) : Prop :=
  ∃ discovered', (∀ x, x ∈ discovered' ↔ x ∈ discovered ∨ x ∈ finished') ∧
    ∀ stack, h.searchFrom discovered finished (cs ++ stack) =
      h.searchFrom discovered' finished' stack

theorem visit_of_mem (hi : i ∈ finished) : h.visit n finished i = finished := by
  cases n
  case zero => rfl
  case succ n => rw [visit, if_pos hi]

theorem Passes.trans {finished' finished'' cs' : List Nat} (hsub : finished' ⊆ finished'')
    (hp : h.Passes discovered finished cs finished')
    (hq : ∀ discovered', (∀ x, x ∈ discovered' ↔ x ∈ discovered ∨ x ∈ finished') →
      h.Passes discovered' finished' cs' finished'') :
    h.Passes discovered finished (cs ++ cs') finished'' := by
  have ⟨d', hd', hr'⟩ := hp
  have ⟨d'', hd'', hr''⟩ := hq d' hd'
  refine ⟨d'', ?_, fun stack => ?_⟩
  case refine_1 =>
    intro x
    rw [hd'', hd', or_assoc]
    exact or_congr_right ⟨fun hx => hx.elim (fun hx => hsub hx) id, .inr⟩
  case refine_2 => rw [List.append_assoc, hr', hr'']

-- The children of `i`, one after the other. Those that are finished need not be on the stack.
theorem passes_foldl {q : Nat → Bool} (he : ∀ c ∈ cs, h.Edge i c) (hg : h.Good finished)
    (hsub : finished ⊆ discovered)
    (hl : ∀ x ∈ discovered, x ∉ finished → ReflTransGen h.Edge x i)
    (hq : ∀ c ∈ cs, q c = false → c ∈ finished)
    (hv : ∀ c ∈ cs, ∀ finished, h.Good finished → h.Visited finished c (h.visit n finished c))
    (hc : ∀ c ∈ cs, ∀ discovered finished, h.Searching discovered finished c →
      h.Passes discovered finished [c] (h.visit n finished c)) :
    h.Passes discovered finished (cs.filter q) (cs.foldl (h.visit n) finished) := by
  induction cs generalizing discovered finished
  case nil => exact ⟨discovered, fun x => ⟨.inl, fun hx => hx.elim id (hsub ·)⟩, fun _ => rfl⟩
  case cons c cs ih =>
    have hcs {x : Nat} : x ∈ cs → x ∈ c :: cs := List.mem_cons_of_mem c
    have he' : ∀ x ∈ cs, h.Edge i x := fun x hx => he x (hcs hx)
    cases hqc : q c
    case false =>
      have hf : c ∈ finished := hq c List.mem_cons_self hqc
      rw [List.filter_cons_of_neg (by simp [hqc]), List.foldl_cons, visit_of_mem hf]
      exact ih he' hg hsub hl (fun x hx => hq x (hcs hx)) (fun x hx => hv x (hcs hx))
        fun x hx => hc x (hcs hx)
    case true =>
      have hvc := hv c List.mem_cons_self finished hg
      have hbelow := visitedBelow_foldl he' hvc.good fun x hx => hv x (hcs hx)
      have hs : h.Searching discovered finished c :=
        ⟨hg, hsub, fun x hx hf => .tail' (hl x hx hf) (he c List.mem_cons_self)⟩
      rw [List.filter_cons_of_pos hqc, List.foldl_cons]
      apply Passes.trans hbelow.mono (hc c List.mem_cons_self discovered finished hs)
      intro d hd
      apply ih he' hvc.good (fun x hx => (hd x).mpr (.inr hx)) ?_ ?_ (fun x hx => hv x (hcs hx))
        fun x hx => hc x (hcs hx)
      case _ =>
        intro x hx hf
        cases (hd x).mp hx
        case inl hx => exact hl x hx fun hx => hf (hvc.mono hx)
        case inr hx => exact absurd hx hf
      case _ => exact fun x hx hqx => hvc.mono (hq x (hcs hx) hqx)

-- The search from the top of the stack is the visit.
theorem passes_visit (hw : h.WellFormed) (hi : i ∈ h.vertices)
    (hs : h.Searching discovered finished i)
    (hn : ∀ vs, List.IsChain h.Edge (i :: vs) → vs.length < n) :
    h.Passes discovered finished [i] (h.visit n finished i) := by
  induction n generalizing i discovered finished
  case zero => exact absurd (hn [] (.singleton i)) (Nat.not_lt_zero _)
  case succ n ih =>
    have hdone {x : Nat} (hx : x ∈ discovered) (hr : ReflTransGen h.Edge i x) : x ∈ finished := by
      by_contra hf
      exact hw.acyclic x (.trans_left (hs.leads x hx hf) hr)
    by_cases hd : i ∈ discovered
    case pos =>
      have hf : i ∈ finished := hdone hd .refl
      refine ⟨discovered, ?_, fun stack => ?_⟩
      case refine_1 =>
        intro x
        rw [visit_of_mem hf]
        exact ⟨.inl, fun hx => hx.elim id (hs.subset ·)⟩
      case refine_2 =>
        rw [List.singleton_append, searchFrom, if_pos hd, if_pos hf, visit_of_mem hf]
    case neg =>
      have hf : i ∉ finished := fun hx => hd (hs.subset hx)
      have he : ∀ c ∈ h.children i, h.Edge i c := fun c hc => mem_children.mp hc
      have hc {c : Nat} (hc : c ∈ h.children i) (vs) (hvs : List.IsChain h.Edge (c :: vs)) :
          vs.length < n :=
        Nat.lt_of_succ_lt_succ (hn (c :: vs) (List.isChain_cons_cons.mpr ⟨he c hc, hvs⟩))
      have hv : ∀ c ∈ h.children i, ∀ finished, h.Good finished →
          h.Visited finished c (h.visit n finished c) :=
        fun c hm finished hg => visited_visit hw (hw.mem i c (he c hm)).2 hg (hc hm)
      have hbelow := visitedBelow_foldl he hs.good hv
      have hi' : i ∉ (h.children i).foldl (h.visit n) finished := by
        intro hx
        cases hbelow.reached i hx
        case inl hx => exact hf hx
        case inr ht => exact hw.acyclic i ht
      have ⟨d, hd', hr⟩ : h.Passes (i :: discovered) finished
          ((h.children i).filter (· ∉ i :: discovered))
          ((h.children i).foldl (h.visit n) finished) := by
        apply passes_foldl he hs.good (fun x hx => List.mem_cons_of_mem i (hs.subset hx)) ?_ ?_ hv
          fun c hm d f hs => ih (hw.mem i c (he c hm)).2 hs (hc hm)
        case _ =>
          intro x hx hxf
          cases List.mem_cons.mp hx
          case inl hxi => exact hxi ▸ .refl
          case inr hx => exact (hs.leads x hx hxf).to_reflTransGen
        case _ =>
          intro c hm hq
          have hci : c ∈ i :: discovered := by simpa [or_iff_not_imp_left] using hq
          cases List.mem_cons.mp hci
          case inl hci => exact absurd (.single (hci ▸ he c hm)) (hw.acyclic i)
          case inr hcd => exact hdone hcd (.single (he c hm))
      refine ⟨d, ?_, fun stack => ?_⟩
      case refine_1 =>
        intro x
        simp only [visit, if_neg hf, hd', List.mem_cons]
        tauto
      case refine_2 =>
        have hid : i ∈ d := (hd' i).mpr (.inl List.mem_cons_self)
        rw [List.singleton_append, searchFrom, if_neg hd, hr, searchFrom, if_pos hid, if_neg hi',
          visit, if_neg hf]

-- Between two searches all that is discovered is finished.
structure Rested (h : Hierarchy) (visited : List Nat) (state : List Nat × List Nat) : Prop where
  discovered : ∀ x, x ∈ state.1 ↔ x ∈ visited
  finished : state.2 = visited
  good : h.Good visited

theorem Rested.searchNext {visited : List Nat} {state : List Nat × List Nat} (hw : h.WellFormed)
    (hi : i ∈ h.vertices) (hs : h.Rested visited state) :
    h.Rested (h.visit h.vertices.length visited i) (h.searchNext state i) := by
  have ⟨d, f⟩ := state
  have ⟨hd, hf, hg⟩ := hs
  subst hf
  have hn (vs) (hc : List.IsChain h.Edge (i :: vs)) := hw.length_lt hc hi
  have hv := visited_visit hw hi hg hn
  by_cases hid : i ∈ d
  case pos =>
    rw [Hierarchy.searchNext, if_pos hid, visit_of_mem ((hd i).mp hid)]
    exact hs
  case neg =>
    have hs : h.Searching d f i :=
      ⟨hg, fun x hx => (hd x).mpr hx, fun x hx hf => absurd ((hd x).mp hx) hf⟩
    have ⟨d', hd', hr⟩ := passes_visit hw hi hs hn
    have hr : h.searchFrom d f [i] = (d', h.visit h.vertices.length f i) := by
      rw [← List.append_nil [i], hr, searchFrom]
    rw [Hierarchy.searchNext, if_neg hid, hr]
    refine ⟨?_, rfl, hv.good⟩
    intro x
    rw [hd', hd]
    exact ⟨fun hx => hx.elim (hv.mono ·) id, .inr⟩

-- One search after the other comes to the visits of all vertices.
theorem search_eq_traversal (hw : h.WellFormed) : h.search = h.traversal := by
  have hr (l : List Nat) (hl : l ⊆ h.vertices) :
      h.Rested (l.foldl (h.visit h.vertices.length) []) (l.foldl h.searchNext ([], [])) := by
    induction l using List.reverseRecOn
    case nil => exact ⟨by simp, rfl, ⟨.nil, by simp, by simp, .nil⟩⟩
    case append_singleton l i ih =>
      rw [List.foldl_concat, List.foldl_concat]
      exact (ih fun x hx => hl (List.mem_append_left _ hx)).searchNext hw (hl (by simp))
  exact (hr h.vertices fun _ hx => hx).finished

-- What a hierarchy takes on at a time.
inductive Operation
  | addVertex (i : Nat)
  | addEdge (parent child : Nat)

namespace Operation

def apply (h : Hierarchy) : Operation → Hierarchy
  | addVertex i => h.addVertex i
  | addEdge parent child => (h.addEdge parent child).1

def indices : Operation → List Nat
  | addVertex i => [i]
  | addEdge parent child => [parent, child]

theorem wellFormed_apply (hw : h.WellFormed) (op : Operation) : (op.apply h).WellFormed := by
  cases op
  case addVertex i => exact hw.addVertex i
  case addEdge p c =>
    by_cases hr : ReflTransGen h.Edge c p
    case pos =>
      rw [apply, addEdge_eq_of_path hw hr]
      exact (hw.addVertex p).addVertex c
    case neg =>
      have ⟨h', he, hw', _, _⟩ := addEdge_eq_of_no_path hw hr
      rw [apply, he]
      exact hw'

theorem mem_vertices_apply (hw : h.WellFormed) (op : Operation) :
    x ∈ (op.apply h).vertices ↔ x ∈ h.vertices ∨ x ∈ op.indices := by
  cases op
  case addVertex i => simp [apply, indices]
  case addEdge p c =>
    by_cases hr : ReflTransGen h.Edge c p
    case pos => simp [apply, addEdge_eq_of_path hw hr, indices, or_assoc]
    case neg =>
      have ⟨h', he, _, _, hv⟩ := addEdge_eq_of_no_path hw hr
      simp [apply, he, hv, indices, or_assoc]

end Operation

-- What an empty hierarchy becomes by the operations.
def ofOperations (ops : List Operation) : Hierarchy := ops.foldl Operation.apply {}

theorem ofOperations_concat (ops : List Operation) (op : Operation) :
    ofOperations (ops ++ [op]) = op.apply (ofOperations ops) :=
  List.foldl_concat ..

theorem wellFormed_ofOperations (ops : List Operation) : (ofOperations ops).WellFormed := by
  induction ops using List.reverseRecOn
  case nil => exact wellFormed_empty
  case append_singleton ops op ih => exact ofOperations_concat ops op ▸ op.wellFormed_apply ih

theorem mem_vertices_ofOperations {ops : List Operation} :
    i ∈ (ofOperations ops).vertices ↔ i ∈ ops.flatMap Operation.indices := by
  induction ops using List.reverseRecOn
  case nil => simp [ofOperations]
  case append_singleton ops op ih =>
    rw [ofOperations_concat, op.mem_vertices_apply (wellFormed_ofOperations ops), ih]
    simp

-- What a further edge comes to.
theorem addEdge_refuses (hw : h.WellFormed) :
    ((h.addEdge p c).2 = false ↔ p = c ∨ ReflTransGen h.Edge c p) ∧
      (h.addEdge p c).1.edges =
        if (h.addEdge p c).2 then h.edges ++ [(p, c)] else h.edges := by
  have hpc : p = c ∨ ReflTransGen h.Edge c p ↔ ReflTransGen h.Edge c p :=
    ⟨fun hp => hp.elim (fun he => he ▸ .refl) id, .inr⟩
  rw [hpc]
  by_cases hr : ReflTransGen h.Edge c p
  case pos => simp [addEdge_eq_of_path hw hr, hr]
  case neg =>
    have ⟨h', he, _, hes, _⟩ := addEdge_eq_of_no_path hw hr
    simp [he, hes, hr]

-- A hierarchy that starts empty, after any operations. Whatever was asked for, no path leads back
-- to where it began: an edge is turned down if and only if it would close a cycle. The search
-- lists all vertices, each of them once and behind all its parents.
theorem order_of_operations (ops : List Operation) :
    let h := ofOperations ops
    (h.vertices.Nodup ∧ ∀ i, i ∈ h.vertices ↔ i ∈ ops.flatMap Operation.indices) ∧
      (∀ i, ¬ TransGen h.Edge i i) ∧
      (∀ p c, ((h.addEdge p c).2 = false ↔ p = c ∨ ReflTransGen h.Edge c p) ∧
        (h.addEdge p c).1.edges =
          if (h.addEdge p c).2 then h.edges ++ [(p, c)] else h.edges) ∧
      h.order? = some h.search ∧ h.search.Nodup ∧ (∀ i, i ∈ h.search ↔ i ∈ h.vertices) ∧
      ∀ p c, h.Edge p c → h.search.idxOf p < h.search.idxOf c := by
  intro h
  have hw : h.WellFormed := wellFormed_ofOperations ops
  have ⟨order, ho, hn, hm, hr⟩ := order?_eq hw
  have hs : h.order? = some h.search := by
    rw [search_eq_traversal hw]
    have ⟨hg, hmem⟩ := good_traversal hw
    simp [order?, respects_of_good hw hg hmem]
  have he : order = h.search := Option.some.inj (ho ▸ hs)
  subst he
  exact ⟨⟨hw.nodup, fun i => mem_vertices_ofOperations⟩, hw.acyclic, fun p c => addEdge_refuses hw,
    ho, hn, hm, fun p c he => hr (p, c) he⟩

end ModelAssembly.Hierarchy
