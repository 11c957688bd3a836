import ModelAssembly.Proofs.OwnerTree
/-!
Walks through the tree of owners. A walk comes by each description below its start once, owners
before their content; its bound on the depth is never reached. In an assembled model, a walk from
the root comes by the descriptions in the order of their indices.

Main statements: `OwnerTree.walk_eq`; `OwnerTree.mem_walk_iff`, `OwnerTree.nodup_walk` and
`OwnerTree.traverses_iff` for what a walk comes by; `Linking.Extended.walk_eq` for the walk through
a model that is being assembled; `containment_is_a_tree` puts them together.
-/

open Relation

namespace ModelAssembly

namespace Model

variable {m n g : Model} {i j depth k o owner start : Nat} {is : List Nat} {Ds : List Declaration}

-- The walk as a loop, on a stack of the descriptions that it has still to visit.
inductive Traverses (m : Model) : List Nat → List Nat → Prop
  | done : Traverses m [] []
  | visit {i : Nat} {d : Description} {stack order : List Nat} : m.get? i = some d →
    Traverses m (d.micro ++ stack) order → Traverses m (i :: stack) (i :: order)

-- Nothing is left to chance.
theorem Traverses.unique {stack order order' : List Nat} (h : m.Traverses stack order)
    (h' : m.Traverses stack order') : order = order' := by
  induction h generalizing order'
  case done =>
    cases h'
    rfl
  case visit hd _ hi =>
    cases h'
    case visit hd' h' =>
      cases hd.symm.trans hd'
      exact congrArg _ (hi h')

-- A walk through a part that contains nothing outside of it is found again wherever that part is
-- held with its contents.
theorem walkTo_map {f : Nat → Nat} {P : Nat → Prop} (hP : ∀ i, P i → ∀ j ∈ m.microOf i, P j)
    (hm : ∀ i, P i → n.microOf (f i) = (m.microOf i).map f) (hi : P i) :
    n.walkTo depth (f i) = (m.walkTo depth i).map f := by
  induction depth generalizing i
  case zero => rfl
  case succ depth ih =>
    rw [walkTo, walkTo, hm i hi, List.map_cons, List.flatMap_map, List.map_flatMap]
    exact congrArg _ (List.flatMap_congr fun j hj => ih (hP i hi j hj))

-- A walk goes by contents only.
theorem walk_congr (hs : n.size = m.size) (hm : ∀ i, n.microOf i = m.microOf i) :
    n.walk i = m.walk i := by
  have h : n.walkTo m.size (id i) = (m.walkTo m.size i).map id :=
    walkTo_map (P := fun _ => True) (fun _ _ _ _ => trivial) (fun i _ => by simp [hm]) trivial
  rw [walk, walk, hs]
  simpa using h

-- A walk does not leave a part of the model that contains nothing outside of it.
theorem of_mem_walkTo {P : Nat → Prop} (hP : ∀ i, P i → ∀ j ∈ m.microOf i, P j) (hi : P i)
    (hj : j ∈ m.walkTo depth i) : P j := by
  induction depth generalizing i
  case zero => simp [walkTo] at hj
  case succ depth ih =>
    rw [walkTo, List.mem_cons, List.mem_flatMap] at hj
    cases hj
    case inl he => exact he ▸ hi
    case inr h =>
      obtain ⟨c, hc, hj⟩ := h
      exact ih (hP i hi c hc) hj

namespace OwnerTree

variable (h : m.OwnerTree)

include h

-- What holds of a description as soon as it holds of its content holds of all of them.
theorem content_induction {P : Nat → Prop}
    (step : ∀ i, i < m.size → (∀ j ∈ m.microOf i, P j) → P i) (hi : i < m.size) : P i := by
  induction hn : m.size - i using Nat.strongRecOn generalizing i
  case ind n ih =>
    refine step i hi fun j hj => ?_
    have ⟨hlt, hj⟩ := h.lt_of_mem_microOf hj
    exact ih (m.size - j) (by omega) hj rfl

-- The depth does not matter as long as it reaches to the end of the model.
theorem walkTo_eq (hi : i < m.size) (hn : m.size - i ≤ depth) :
    m.walkTo depth i = m.walk i := by
  have hany (hi : i < m.size) :
      ∀ n k, m.size - i ≤ n → m.size - i ≤ k → m.walkTo n i = m.walkTo k i := by
    refine h.content_induction (P := fun i => ∀ n k, m.size - i ≤ n → m.size - i ≤ k →
      m.walkTo n i = m.walkTo k i) (fun i hi ih n k hn hk => ?_) hi
    obtain ⟨n', hn'⟩ : ∃ n', n = n' + 1 := ⟨n - 1, by omega⟩
    obtain ⟨k', hk'⟩ : ∃ k', k = k' + 1 := ⟨k - 1, by omega⟩
    rw [hn', hk', walkTo, walkTo]
    refine congrArg _ (List.flatMap_congr fun j hj => ?_)
    obtain ⟨hlt, _⟩ := h.lt_of_mem_microOf hj
    exact ih j hj n' k' (by omega) (by omega)
  exact hany hi depth m.size hn (Nat.sub_le ..)

theorem walk_eq (hi : i < m.size) : m.walk i = i :: (m.microOf i).flatMap m.walk := by
  have hn : m.size = (m.size - 1) + 1 := by omega
  rw [walk, hn, walkTo]
  refine congrArg _ (List.flatMap_congr fun j hj => ?_)
  obtain ⟨hlt, hj⟩ := h.lt_of_mem_microOf hj
  exact h.walkTo_eq hj (by omega)

theorem self_mem_walk (hi : i < m.size) : i ∈ m.walk i := by
  rw [h.walk_eq hi]
  exact List.mem_cons_self

-- A walk comes by what its start owns, directly or not.
theorem mem_walk_iff (hs : start < m.size) :
    i ∈ m.walk start ↔ ReflTransGen m.OwnedBy i start := by
  constructor
  case mp =>
    refine h.content_induction (P := fun start => i ∈ m.walk start → ReflTransGen m.OwnedBy i start)
      (fun start hs ih hi => ?_) hs
    rw [h.walk_eq hs, List.mem_cons, List.mem_flatMap] at hi
    cases hi
    case inl hi => exact hi ▸ .refl
    case inr hi =>
      have ⟨c, hc, hi⟩ := hi
      exact (ih c hc hi).tail ((h.micro start c).mp hc)
  case mpr =>
    intro hi
    induction hi using ReflTransGen.head_induction_on
    case refl => exact h.self_mem_walk hs
    case head i o ho _ hmem =>
      refine h.content_induction (P := fun start => o ∈ m.walk start → i ∈ m.walk start)
        (fun start hs ih hm => ?_) hs hmem
      rw [h.walk_eq hs, List.mem_cons, List.mem_flatMap] at hm ⊢
      cases hm
      case inl hm =>
        have hi : i ∈ m.microOf start := hm ▸ (h.micro o i).mpr ho
        exact .inr ⟨i, hi, h.self_mem_walk (h.lt_of_mem_microOf hi).2⟩
      case inr hm =>
        have ⟨c, hc, hm⟩ := hm
        exact .inr ⟨c, hc, ih c hc hm⟩

theorem le_of_owns (hi : ReflTransGen m.OwnedBy i o) : o ≤ i := by
  induction hi
  case refl => exact Nat.le_refl _
  case tail ho hle => exact Nat.le_of_lt (Nat.lt_of_lt_of_le (h.lt_of_ownedBy ho) hle)

-- What two descriptions own is apart unless one of them owns the other.
theorem not_owns_of_siblings {c c' : Nat} (hc : m.OwnedBy c o) (hc' : m.OwnedBy c' o)
    (hne : c ≠ c') : ¬ ReflTransGen m.OwnedBy c c' := by
  intro hr
  cases ReflTransGen.cases_head hr
  case inl he => exact hne he
  case inr hr =>
    have ⟨p, ⟨d, hd, hp⟩, hr⟩ := hr
    have ⟨d', hd', ho⟩ := hc
    cases hd.symm.trans hd'
    cases hp.symm.trans ho
    exact Nat.not_lt.mpr (h.le_of_owns hr) (h.lt_of_ownedBy hc')

-- Of two on the way from one description to the root, one owns the other.
theorem eq_of_owns {c c' x : Nat} (hc : m.OwnedBy c o) (hc' : m.OwnedBy c' o)
    (hx : ReflTransGen m.OwnedBy x c) (hx' : ReflTransGen m.OwnedBy x c') : c = c' := by
  have hunique : Relator.RightUnique m.OwnedBy := by
    intro i o o' ⟨d, hd, ho⟩ ⟨d', hd', ho'⟩
    cases hd.symm.trans hd'
    exact Option.some.inj (ho.symm.trans ho')
  by_contra hne
  cases ReflTransGen.total_of_right_unique hunique hx hx'
  case inl h' => exact h.not_owns_of_siblings hc hc' hne h'
  case inr h' => exact h.not_owns_of_siblings hc' hc (Ne.symm hne) h'

theorem nodup_walk (hs : start < m.size) : (m.walk start).Nodup := by
  refine h.content_induction (P := fun i => (m.walk i).Nodup) (fun i hi ih => ?_) hs
  rw [h.walk_eq hi]
  have hbelow (j : Nat) (hj : j ∈ m.microOf i) (x : Nat) (hx : x ∈ m.walk j) :
      ReflTransGen m.OwnedBy x j :=
    (h.mem_walk_iff (h.lt_of_mem_microOf hj).2).mp hx
  refine List.nodup_cons.mpr ⟨fun hm => ?_, List.nodup_flatMap.mpr ⟨ih, ?_⟩⟩
  · have ⟨j, hj, hi⟩ := List.mem_flatMap.mp hm
    exact Nat.not_lt.mpr (h.le_of_owns (hbelow j hj i hi)) (h.lt_of_mem_microOf hj).1
  · refine (h.sorted i).imp_of_mem fun {a b} ha hb hlt x hxa hxb => ?_
    exact Nat.ne_of_lt hlt (h.eq_of_owns ((h.micro i a).mp ha) ((h.micro i b).mp hb)
      (hbelow a ha x hxa) (hbelow b hb x hxb))

-- Owners come before their content, and siblings in order.
theorem sublist_walk (hs : start < m.size) (hi : i ∈ m.walk start) :
    (i :: m.microOf i).Sublist (m.walk start) := by
  refine h.content_induction (P := fun start => i ∈ m.walk start →
    (i :: m.microOf i).Sublist (m.walk start)) (fun start hs ih hi => ?_) hs hi
  rw [h.walk_eq hs, List.mem_cons, List.mem_flatMap] at hi
  rw [h.walk_eq hs]
  cases hi
  case inl hi =>
    subst hi
    have hself : ∀ l : List Nat, (∀ j ∈ l, j ∈ m.walk j) → l.Sublist (l.flatMap m.walk) := by
      intro l hl
      induction l
      case nil => exact .slnil
      case cons j l hi =>
        rw [List.flatMap_cons]
        exact (List.singleton_sublist.mpr (hl j List.mem_cons_self)).append
          (hi fun x hx => hl x (List.mem_cons_of_mem j hx))
    exact (hself _ fun j hj => h.self_mem_walk (h.lt_of_mem_microOf hj).2).cons_cons i
  case inr hi =>
    have ⟨c, hc, hi⟩ := hi
    exact ((ih c hc hi).trans (List.sublist_flatten_of_mem (List.mem_map_of_mem hc))).cons start

-- The loop comes to its end, with the walk as its result.
theorem traverses_iff (hs : start < m.size) {order : List Nat} :
    m.Traverses [start] order ↔ order = m.walk start := by
  have hall : ∀ stack order, m.Traverses stack order →
      m.Traverses (start :: stack) (m.walk start ++ order) := by
    refine h.content_induction (P := fun i => ∀ stack order, m.Traverses stack order →
      m.Traverses (i :: stack) (m.walk i ++ order)) (fun i hi ih stack order ht => ?_) hs
    have ⟨d, hd⟩ := get?_of_lt_size hi
    have hcontent : ∀ l, (∀ j ∈ l, j ∈ m.microOf i) →
        m.Traverses (l ++ stack) (l.flatMap m.walk ++ order) := by
      intro l hl
      induction l
      case nil => exact ht
      case cons j l hi =>
        rw [List.flatMap_cons, List.append_assoc]
        exact ih j (hl j List.mem_cons_self) _ _ (hi fun x hx => hl x (List.mem_cons_of_mem j hx))
    rw [h.walk_eq hi, List.cons_append]
    exact .visit hd (microOf_of_get? hd ▸ hcontent _ fun _ hj => hj)
  have hwalk : m.Traverses [start] (m.walk start) := by simpa using hall [] [] .done
  exact ⟨fun ht => ht.unique hwalk, fun he => he ▸ hwalk⟩

end OwnerTree

-- A walk through a stretch of declarations comes by all of it, from the first to the last.
theorem Mirrors.flatMap_walkTo (h : Mirrors m owner i Ds is j) (hn : j - i ≤ depth) :
    is.flatMap (m.walkTo depth) = List.range' i (j - i) := by
  induction h generalizing depth
  case nil => simp
  case cons i j k d D Ds is hd hs hnest hr hin hir =>
    have hij := hnest.le
    have hjk := hr.le
    have ⟨n, hn⟩ : ∃ n, depth = n + 1 := ⟨depth - 1, by omega⟩
    have hlen : k - i = (j - (i + 1)) + 1 + (k - j) := by omega
    have hj : i + 1 + 1 * (j - (i + 1)) = j := by omega
    rw [List.flatMap_cons, hir (by omega), hn, walkTo, microOf_of_get? hd, hin (by omega), hlen,
      Nat.add_right_comm, List.range'_succ, List.cons_append]
    congr 1
    have happ := @List.range'_append (i + 1) (j - (i + 1)) (k - j) 1
    rw [hj] at happ
    exact happ

-- A walk through a block of a grafted model is the walk through that model.
theorem walkTo_of_block (hg : g.OwnerTree)
    (hb : ∀ k, k < g.size → m.microOf (start + k) = (g.microOf k).map (· + start))
    (hk : k < g.size) : m.walkTo depth (start + k) = (g.walkTo depth k).map (· + start) := by
  have hb (k : Nat) (hk : k < g.size) : m.microOf (k + start) = (g.microOf k).map (· + start) :=
    Nat.add_comm start k ▸ hb k hk
  rw [Nat.add_comm]
  exact walkTo_map (P := (· < g.size)) (fun i _ j hj => (hg.lt_of_mem_microOf hj).2) hb hk

-- If walks through grafted models come by everything in order, so does one through their blocks.
theorem flatMap_walkTo_graftRoots {es : List (String × Model)}
    (hb : ∀ k d, (graftBlock start es)[k]? = some d → m.microOf (start + k) = d.micro)
    (hg : ∀ e ∈ es, e.2.OwnerTree ∧ e.2.walk rootIndex = List.range e.2.size)
    (hn : (graftBlock start es).length ≤ depth) :
    (graftRoots start es).flatMap (m.walkTo depth) =
      List.range' start (graftBlock start es).length := by
  induction es generalizing start
  case nil => rfl
  case cons e es hi =>
    obtain ⟨htree, hwalk⟩ := hg e List.mem_cons_self
    have hlen : (graftBlock start (e :: es)).length =
        e.2.size + (graftBlock (start + e.2.size) es).length := by
      simp [graftBlock]
    have hpos := e.2.size_pos
    have hblock (k : Nat) (hk : k < e.2.size) :
        m.microOf (start + k) = (e.2.microOf k).map (· + start) := by
      obtain ⟨d, hd⟩ := get?_of_lt_size hk
      have hs : (graftBlock start (e :: es))[k]? = (e.2.shifted start e.1)[k]? :=
        List.getElem?_append_left (by simpa using hk)
      rw [getElem?_shifted, hd] at hs
      rw [hb k _ hs, microOf_of_get? hd]
      rfl
    have hrest (k : Nat) (d : Description)
        (hd : (graftBlock (start + e.2.size) es)[k]? = some d) :
        m.microOf (start + e.2.size + k) = d.micro := by
      rw [Nat.add_assoc]
      refine hb _ d ?_
      rw [graftBlock, List.getElem?_append_right (by simp)]
      simpa using hd
    have hroot : m.walkTo depth start = (e.2.walkTo depth rootIndex).map (· + start) :=
      walkTo_of_block htree hblock hpos
    have hfull : e.2.walkTo depth rootIndex = e.2.walk rootIndex := htree.walkTo_eq hpos (by omega)
    have hrange : (List.range e.2.size).map (· + start) = List.range' start e.2.size := by
      simp [List.range'_eq_map_range, Nat.add_comm]
    have happ := @List.range'_append start e.2.size (graftBlock (start + e.2.size) es).length 1
    rw [Nat.one_mul] at happ
    rw [graftRoots, List.flatMap_cons, hi hrest (fun x hx => hg x (List.mem_cons_of_mem e hx))
      (by omega), hlen, ← happ, ← hrange, ← hwalk, ← hfull]
    exact congrArg (· ++ _) hroot

end Model

namespace Assembler

open Model

variable {a : Assembler} {r : Request} {m : Model} {i : Nat}

namespace Linking

variable (l : Linking a r)

theorem walk_model : l.model.walk rootIndex = rootIndex ::
    ((graftRoots 1 r.grafts.entries).flatMap (l.model.walkTo (l.model.size - 1)) ++
      List.range' l.base (l.model.size - l.base)) := by
  have hbase := l.base_pos
  have ⟨n, hn⟩ : ∃ n, l.model.size = n + 1 :=
    ⟨l.model.size - 1, by have := l.model.size_pos; omega⟩
  have hplaced : (DeclarationTree.roots l.base (l.declared.map Declarations.tree)).flatMap
      (l.model.walkTo n) = List.range' l.base (l.model.size - l.base) :=
    l.mirrors.flatMap_walkTo (by omega)
  have hw : l.model.walk rootIndex = l.model.walkTo (n + 1) rootIndex := by rw [walk, hn]
  have hn' : l.model.size - 1 = n := by omega
  rw [hw, hn', walkTo, microOf_of_get? (get?_rootIndex l.model), l.root_model,
    List.flatMap_append, hplaced]

-- What a walk comes by below the grafted roots was grafted.
theorem lt_base_of_mem_walkTo
    (hm : ∀ i, i ≠ rootIndex → i < l.model.size → m.microOf i = l.model.microOf i)
    (hg : ∀ g ∈ r.grafts.entries, g.2.InRange) {n : Nat}
    (hi : i ∈ (graftRoots 1 r.grafts.entries).flatMap (m.walkTo n)) : 0 < i ∧ i < l.base := by
  have hle := l.mirrors.le
  have ⟨root, hroot, hi⟩ := List.mem_flatMap.mp hi
  have hb := l.base_eq
  have ⟨h1, h2⟩ := lt_of_mem_graftRoots hroot
  refine of_mem_walkTo (P := fun i => 0 < i ∧ i < l.base) ?_ (by omega) hi
  -- What a grafted description contains stands in the same block.
  intro i ⟨h0, hi⟩ j hj
  have ⟨g, hg', offset, k, ho, hend, hik, hk, hblock⟩ := l.exists_block h0 hi
  have ⟨d, hd⟩ := get?_of_lt_size hk
  have hdi := hblock k hk
  rw [hd, ← hik] at hdi
  rw [hm i (Nat.ne_of_gt h0) (by omega), microOf_of_get? hdi] at hj
  have ⟨c, hc, hcj⟩ := List.mem_map.mp hj
  have hlt := (hg g hg').micro k c (microOf_of_get? hd ▸ hc)
  omega

end Linking

namespace Linking.Extended

variable {l : Linking a r} (h : l.Extended m)

include h

theorem microOf_eq (h0 : i ≠ rootIndex) (hi : i < l.model.size) :
    m.microOf i = l.model.microOf i := by
  have ⟨d, e, hd, he, hs⟩ := h.get? i h0 hi
  rw [microOf_of_get? hd, microOf_of_get? he, Description.micro_of_bare hs.1]

-- First the root, then the grafts, then what was declared and the scheduler.
theorem walk_eq : m.walk rootIndex = rootIndex ::
    ((graftRoots 1 r.grafts.entries).flatMap (m.walkTo (m.size - 1)) ++
      List.range' l.base (m.size - l.base)) := by
  have hbase := l.base_pos
  have hle := l.mirrors.le
  have hsize := h.size
  obtain ⟨n, hn⟩ : ∃ n, m.size = n + 1 := ⟨m.size - 1, by have := m.size_pos; omega⟩
  have hmirrors : m.Mirrors rootIndex l.base l.declared
      (DeclarationTree.roots l.base (l.declared.map Declarations.tree)) l.model.size := by
    refine l.mirrors.of_bare fun k d hk hlt hd => ?_
    obtain ⟨d', e, hd', he, hs⟩ := h.get? k (by simp only [rootIndex]; omega) hlt
    cases hd.symm.trans hd'
    exact ⟨e, he, hs.1⟩
  have hplaced : (DeclarationTree.roots l.base (l.declared.map Declarations.tree)).flatMap
      (m.walkTo n) = List.range' l.base (l.model.size - l.base) :=
    hmirrors.flatMap_walkTo (by omega)
  have hsched : (if a.addsScheduler r then [l.model.size] else []).flatMap (m.walkTo n) =
      List.range' l.model.size (m.size - l.model.size) := by
    cases ha : a.addsScheduler r
    case false => simp [hsize, ha]
    case true =>
      obtain ⟨n', hn'⟩ : ∃ n', n = n' + 1 := ⟨n - 1, by simp only [ha, if_true] at hsize; omega⟩
      obtain ⟨d, hd, _, hmicro, _⟩ := h.scheduler ha
      simp [hsize, ha, hn', walkTo, microOf_of_get? hd, hmicro]
  have hrange : List.range' l.base (m.size - l.base) =
      List.range' l.base (l.model.size - l.base) ++
        List.range' l.model.size (m.size - l.model.size) := by
    have hm := h.le_size
    have hstart : l.base + 1 * (l.model.size - l.base) = l.model.size := by omega
    have hlen : m.size - l.base = (l.model.size - l.base) + (m.size - l.model.size) := by omega
    have happ := @List.range'_append l.base (l.model.size - l.base) (m.size - l.model.size) 1
    rw [hstart] at happ
    rw [hlen, happ]
  have hw : m.walk rootIndex = m.walkTo (n + 1) rootIndex := by rw [walk, hn]
  have hn' : m.size - 1 = n := by omega
  rw [hw, hn', walkTo, microOf_of_get? (get?_rootIndex m), h.micro_root, l.root_model,
    List.flatMap_append, List.flatMap_append, hplaced, hsched, List.append_assoc, ← hrange]

theorem lt_base_of_mem_walkTo (hg : ∀ g ∈ r.grafts.entries, g.2.InRange) {n : Nat}
    (hi : i ∈ (graftRoots 1 r.grafts.entries).flatMap (m.walkTo n)) : 0 < i ∧ i < l.base :=
  l.lt_base_of_mem_walkTo (fun _ => h.microOf_eq) hg hi

-- In order, if walks through the grafts are in order.
theorem walk_eq_range
    (hg : ∀ g ∈ r.grafts.entries, g.2.OwnerTree ∧ g.2.walk rootIndex = List.range g.2.size) :
    m.walk rootIndex = List.range m.size := by
  have hb := l.base_eq
  have hle := l.mirrors.le
  have hsize := h.le_size
  have hblock (k : Nat) (d : Description)
      (hd : (graftBlock 1 r.grafts.entries)[k]? = some d) : m.microOf (1 + k) = d.micro := by
    have hk := (List.getElem?_eq_some_iff.mp hd).1
    have hget := l.get?_of_lt (i := 1 + k) (by omega) (by omega)
    rw [Nat.add_sub_cancel_left, hd] at hget
    rw [h.microOf_eq (by simp only [rootIndex]; omega) (by omega), microOf_of_get? hget]
  have hbase : (graftBlock 1 r.grafts.entries).length = l.base - 1 := by omega
  have happ := @List.range'_append 1 (l.base - 1) (m.size - l.base) 1
  have hstart : 1 + 1 * (l.base - 1) = l.base := by omega
  have hlen : l.base - 1 + (m.size - l.base) = m.size - 1 := by omega
  rw [hstart, hlen] at happ
  have hroot : List.range m.size = rootIndex :: List.range' 1 (m.size - 1) := by
    have hn : m.size = (m.size - 1) + 1 := by omega
    rw [hn, List.range_eq_range', List.range'_succ]
    rfl
  rw [h.walk_eq, flatMap_walkTo_graftRoots hblock hg (by omega), hbase, happ, hroot]

end Linking.Extended

end Assembler

namespace Model

open Assembler

variable {m : Model}

-- The models that come of the assembler when all that it grafts does.
inductive Assembled : Model → Prop
  | assemble {a : Assembler} {r : Request} {m : Model} : (∀ g ∈ r.grafts.entries, Assembled g.2) →
    (a.assemble r).result = .ok m → Assembled m

theorem Assembled.built (h : m.Assembled) : m.Built := by
  induction h
  case assemble hm hg => exact .assemble hg hm

theorem Assembled.walk_eq (h : m.Assembled) : m.walk rootIndex = List.range m.size := by
  induction h
  case assemble hg hm hi =>
    have ⟨run⟩ := exists_run hm
    exact run.extended.walk_eq_range fun g hmem => ⟨(hg g hmem).built.ownerTree, hi g hmem⟩

end Model

open Model

-- Containment is a tree in every model that was built by operations, and an assembled model keeps
-- its descriptions in the order of that tree.
theorem containment_is_a_tree (m : Model) :
    (m.Built →
      m.root.owner = none ∧
      (∀ i d, m.get? i = some d → i ≠ rootIndex → ∃ o, d.owner = some o ∧ o < i ∧
        (m.microOf o).count i = 1 ∧ ∀ o', i ∈ m.microOf o' → o' = o) ∧
      (∀ o i, i ∈ m.microOf o ↔ m.OwnedBy i o) ∧
      (∀ o, (m.microOf o).Pairwise (· < ·)) ∧
      ∀ start, start < m.size →
        (∀ order, m.Traverses [start] order ↔ order = m.walk start) ∧
        (m.walk start).Nodup ∧
        (∀ i, i ∈ m.walk start ↔ ReflTransGen m.OwnedBy i start) ∧
        ∀ i ∈ m.walk start, (i :: m.microOf i).Sublist (m.walk start)) ∧
    (m.Assembled → m.Built ∧ m.walk rootIndex = List.range m.size) := by
  refine ⟨fun hb => ?built, fun ha => ⟨ha.built, ha.walk_eq⟩⟩
  case built =>
    have h := hb.ownerTree
    refine ⟨h.root, fun i d hd h0 => ?owner, h.micro, h.sorted, fun start hs => ?walk⟩
    case owner =>
      have ⟨o, ho, hlt⟩ := h.owner i d hd h0
      have hmem : i ∈ m.microOf o := (h.micro o i).mpr ⟨d, hd, ho⟩
      have hnodup : (m.microOf o).Nodup := (h.sorted o).imp Nat.ne_of_lt
      refine ⟨o, ho, hlt, List.count_eq_one_of_mem hnodup hmem, fun o' hm => ?_⟩
      have ⟨d', hd', ho'⟩ := (h.micro o' i).mp hm
      cases hd.symm.trans hd'
      exact Option.some.inj (ho'.symm.trans ho)
    case walk =>
      exact ⟨fun _ => h.traverses_iff hs, h.nodup_walk hs, fun _ => h.mem_walk_iff hs,
        fun _ hi => h.sublist_walk hs hi⟩

-- A pond with ducks and ducklings, and a park that grafts the pond and is scheduled.
def pondRequest : Request where
  primary := "pond"
  trees := [{
    kind := .model
    name := some "pond"
    children := [{
      kind := .species
      name := some "duck"
      children := [{ kind := .species, name := some "duckling" }] }] }]

def parkRequest (pond : Model) : Request where
  primary := "park"
  trees := [{
    kind := .model
    name := some "park"
    facets := .ofList [("schedules", "shuffle(bench)")]
    children := [{ kind := .species, name := some "bench" }] }]
  grafts := .ofList [("water", pond)]

def park : Except AssemblyError Model := do
  let pond ← (({} : Assembler).assemble pondRequest).result
  (({} : Assembler).assemble (parkRequest pond)).result

-- The pond stands between the root and the bench; the scheduler comes last.
theorem containment_is_a_tree_of_park : ∃ m, park = .ok m ∧ m.Assembled ∧ m.Built ∧
    m.walk rootIndex = [0, 1, 2, 3, 4, 5] ∧ m.Traverses [1] [1, 2, 3] ∧
    (∀ i, i ∈ [1, 2, 3] ↔ ReflTransGen m.OwnedBy i 1) ∧ (∀ o', 3 ∈ m.microOf o' → o' = 2) := by
  have hfacts : park.toOption.map (fun m => (m.size, m.walk 1, (m.get? 3).map (·.owner))) =
      some (6, [1, 2, 3], some (some 2)) := by
    decide +kernel
  have ⟨m, hm, hfacts⟩ := Option.map_eq_some_iff.mp hfacts
  have hm := toOption_eq_some_iff.mp hm
  have ⟨pond, hp, hpark⟩ := bind_eq_ok_iff.mp hm
  have hpond : pond.Assembled := .assemble (fun _ hg => absurd hg List.not_mem_nil) hp
  have hall : m.Assembled := by
    refine .assemble (fun g hg => ?_) hpark
    cases List.mem_singleton.mp hg
    exact hpond
  have ⟨hsize, hwalk, howner⟩ : m.size = 6 ∧ m.walk 1 = [1, 2, 3] ∧
      (m.get? 3).map (·.owner) = some (some 2) := by
    simpa using hfacts
  have ⟨htree, hassembled⟩ := containment_is_a_tree m
  have ⟨hbuilt, hroot⟩ := hassembled hall
  have ⟨_, hown, _, _, hwalks⟩ := htree hbuilt
  have ⟨htraverses, _, hmem, _⟩ := hwalks 1 (by omega)
  have ⟨d, hd, hdo⟩ := Option.map_eq_some_iff.mp howner
  have ⟨o, ho, _, _, honly⟩ := hown 3 d hd (by decide)
  cases hdo.symm.trans ho
  exact ⟨m, hm, hall, hbuilt, by rw [hroot, hsize]; rfl, (htraverses _).mpr hwalk.symm,
    hwalk ▸ hmem, honly⟩

end ModelAssembly
