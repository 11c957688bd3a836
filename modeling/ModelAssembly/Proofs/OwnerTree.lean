import ModelAssembly.Proofs.Operations
/-!
The tree of owners. Which description contains which is written down twice, at the owner and at what
it contains. Operations keep the two in agreement, and grafting does so under new indices.

Main statements: `OwnerTree.grow` adds a forest below any description; `Built.ownerTree` says that
every model which is built by operations is a tree.
-/

namespace ModelAssembly

namespace Description

variable {d d' : Description}

theorem owner_of_bare (h : d'.bare = d.bare) : d'.owner = d.owner := by
  have ho := congrArg Description.owner h
  exact ho

theorem Made.owner (h : d.Made) : d.owner = none := by
  induction h
  case new => rfl
  case shell hs =>
    have ⟨_, hd⟩ := exists_new_of_shell? hs
    exact hd ▸ rfl
  case builtIn => rfl
  case operation ho hi => exact ho.owner.trans hi

end Description

namespace Model

open Description

variable {m n g : Model} {i j k o owner start : Nat} {d : Description} {name : String}
variable {roots : List Nat} {ds : List Description}

theorem rootIndex_lt_size (m : Model) : rootIndex < m.size := m.size_pos

-- The description at `i` has that at `o` as its owner.
def OwnedBy (m : Model) (i o : Nat) : Prop := ∃ d, m.get? i = some d ∧ d.owner = some o

-- Containment is a tree, told in the same way by owners and by what they contain.
structure OwnerTree (m : Model) : Prop where
  root : m.root.owner = none
  owner : ∀ i d, m.get? i = some d → i ≠ rootIndex → ∃ o, d.owner = some o ∧ o < i
  micro : ∀ i j, j ∈ m.microOf i ↔ m.OwnedBy j i
  sorted : ∀ i, (m.microOf i).Pairwise (· < ·)

-- `ds` fit in from `start` on below `owner`, for which those at `roots` are meant.
structure Forest (owner start : Nat) (roots : List Nat) (ds : List Description) : Prop where
  owned : ∀ k d, ds[k]? = some d →
    d.owner = some owner ∨ ∃ o, d.owner = some (start + o) ∧ o < k
  mem_roots : ∀ j, j ∈ roots ↔ ∃ k d, j = start + k ∧ ds[k]? = some d ∧ d.owner = some owner
  mem_micro : ∀ o d, ds[o]? = some d → ∀ j, j ∈ d.micro ↔
    ∃ k e, j = start + k ∧ ds[k]? = some e ∧ e.owner = some (start + o)
  sorted_roots : roots.Pairwise (· < ·)
  sorted : ∀ d ∈ ds, d.micro.Pairwise (· < ·)

section

variable (m) (owner) (roots) (ds)

theorem microOf_grow_left (h : i < m.size) : (m.grow owner roots ds).microOf i =
    m.microOf i ++ if i = owner then roots else [] := by
  have ⟨d, hd⟩ := get?_of_lt_size h
  rw [microOf, microOf, get?_grow_of_lt _ _ _ _ h, hd]
  by_cases hi : i = owner <;> simp [hi]

theorem microOf_grow_right (h : m.size ≤ i) :
    (m.grow owner roots ds).microOf i = (ds[i - m.size]?.map (·.micro)).getD [] := by
  rw [microOf, get?_grow_right _ _ h]

theorem ownedBy_grow_left (h : j < m.size) :
    (m.grow owner roots ds).OwnedBy j i ↔ m.OwnedBy j i := by
  have ⟨d, hd⟩ := get?_of_lt_size h
  rw [OwnedBy, OwnedBy, get?_grow_of_lt _ _ _ _ h, hd]
  by_cases hj : j = owner <;> simp [hj]

theorem ownedBy_grow_right : (m.grow owner roots ds).OwnedBy (m.size + k) i ↔
    ∃ d, ds[k]? = some d ∧ d.owner = some i := by
  rw [OwnedBy, get?_grow_right _ _ (Nat.le_add_right ..), Nat.add_sub_cancel_left]

end

namespace Forest

variable (h : Forest owner start roots ds)

include h

theorem le_of_mem_roots (hj : j ∈ roots) : start ≤ j := by
  have ⟨k, _, hk, _⟩ := (h.mem_roots j).mp hj
  omega

-- An owner within the forest comes before what it owns.
theorem eq_or_lt_of_owner (hd : ds[k]? = some d) (ho : d.owner = some o) :
    o = owner ∨ start ≤ o ∧ o < start + k := by
  cases h.owned k d hd
  case inl hp => exact .inl (Option.some.inj (ho.symm.trans hp))
  case inr hp =>
    have ⟨p, hp, hlt⟩ := hp
    have hop := Option.some.inj (ho.symm.trans hp)
    omega

end Forest

namespace OwnerTree

theorem lt_size (h : m.OwnedBy i o) : i < m.size :=
  have ⟨_, hd, _⟩ := h
  lt_size_of_get? hd

variable (h : m.OwnerTree)

include h

theorem lt_of_ownedBy (ho : m.OwnedBy i o) : o < i := by
  have ⟨d, hd, hdo⟩ := ho
  by_cases hi : i = rootIndex
  case pos =>
    subst hi
    have hr := h.root
    rw [root_eq_iff.mpr hd, hdo] at hr
    cases hr
  case neg =>
    have ⟨o', ho', hlt⟩ := h.owner i d hd hi
    cases hdo.symm.trans ho'
    exact hlt

theorem lt_of_mem_microOf (hj : j ∈ m.microOf i) : i < j ∧ j < m.size :=
  have ho := (h.micro i j).mp hj
  ⟨h.lt_of_ownedBy ho, lt_size ho⟩

-- Containment goes by owners and contents only.
theorem congr (hc : ∀ i, (n.get? i).map (fun d => (d.owner, d.micro)) =
    (m.get? i).map fun d => (d.owner, d.micro)) : n.OwnerTree := by
  have hget (i : Nat) (d : Description) (hd : n.get? i = some d) :
      ∃ e, m.get? i = some e ∧ e.owner = d.owner ∧ e.micro = d.micro := by
    have hi := hc i
    rw [hd] at hi
    have ⟨e, he, heq⟩ := Option.map_eq_some_iff.mp hi.symm
    have ⟨ho, hm⟩ := Prod.mk.inj heq
    exact ⟨e, he, ho, hm⟩
  have hmicro (i : Nat) : n.microOf i = m.microOf i := by
    have hi := congrArg (Option.map Prod.snd) (hc i)
    simp only [Option.map_map] at hi
    exact congrArg (Option.getD · []) hi
  have howned (i o : Nat) : n.OwnedBy i o ↔ m.OwnedBy i o := by
    have hi := congrArg (Option.map Prod.fst) (hc i)
    simp only [Option.map_map] at hi
    have ho (k : Model) : k.OwnedBy i o ↔ (k.get? i).map (·.owner) = some (some o) :=
      Option.map_eq_some_iff.symm
    rw [ho, ho]
    exact Eq.congr_left hi
  refine ⟨?root, fun i d hd h0 => ?owner, fun i j => ?micro, fun i => hmicro i ▸ h.sorted i⟩
  case root =>
    have ⟨e, he, ho, _⟩ := hget rootIndex n.root (get?_rootIndex n)
    rw [← ho, ← root_eq_iff.mpr he, h.root]
  case owner =>
    have ⟨e, he, ho, _⟩ := hget i d hd
    exact ho ▸ h.owner i e he h0
  case micro => rw [hmicro, howned, h.micro]

section

variable (hf : Forest owner m.size roots ds)

include hf

-- Old descriptions are contained in old ones only.
theorem mem_microOf_grow_old (hj : j < m.size) :
    j ∈ (m.grow owner roots ds).microOf i ↔ j ∈ m.microOf i := by
  cases Nat.lt_or_ge i m.size
  case inl hi =>
    have hno : j ∉ roots := fun hm => Nat.not_lt.mpr (hf.le_of_mem_roots hm) hj
    by_cases hio : i = owner
    case pos => simp [microOf_grow_left _ _ _ _ hi, if_pos hio, hno]
    case neg => simp [microOf_grow_left _ _ _ _ hi, if_neg hio]
  case inr hi =>
    refine iff_of_false (fun hm => ?_) fun hm => ?_
    · have ⟨d, hd, hm⟩ := exists_of_mem_microOf hm
      rw [get?_grow_right _ _ hi] at hd
      have ⟨k, _, hk, _⟩ := (hf.mem_micro _ d hd j).mp hm
      omega
    · have hlt := h.lt_of_mem_microOf hm
      omega

-- New descriptions are contained in `owner` or in new ones.
theorem mem_microOf_grow_new (ho : owner < m.size) :
    m.size + k ∈ (m.grow owner roots ds).microOf i ↔ ∃ d, ds[k]? = some d ∧ d.owner = some i := by
  have hcancel {i : Nat} : (∃ k' d, m.size + k = m.size + k' ∧ ds[k']? = some d ∧
      d.owner = some i) ↔ ∃ d, ds[k]? = some d ∧ d.owner = some i := by
    simp only [Nat.add_left_cancel_iff, exists_and_left]
    exact ⟨fun ⟨k', hk, hd⟩ => hk ▸ hd, fun hd => ⟨k, rfl, hd⟩⟩
  cases Nat.lt_or_ge i m.size
  case inl hi =>
    have hno : m.size + k ∉ m.microOf i := by
      intro hm
      have hlt := (h.lt_of_mem_microOf hm).2
      omega
    rw [microOf_grow_left _ _ _ _ hi, List.mem_append, or_iff_right hno]
    by_cases hio : i = owner
    case pos => rw [if_pos hio, hf.mem_roots, hio, hcancel]
    case neg =>
      rw [if_neg hio]
      refine iff_of_false List.not_mem_nil fun ⟨d, hd, hp⟩ => ?_
      have hor := hf.eq_or_lt_of_owner hd hp
      omega
  case inr hi =>
    have ⟨o, hi⟩ := Nat.exists_eq_add_of_le hi
    rw [hi, microOf_grow_right _ _ _ _ (Nat.le_add_right ..), Nat.add_sub_cancel_left]
    cases hd : ds[o]?
    case some d => rw [Option.map_some, Option.getD_some, hf.mem_micro o d hd, hcancel]
    case none =>
      refine iff_of_false List.not_mem_nil fun ⟨e, he, hp⟩ => ?_
      have hor := hf.eq_or_lt_of_owner he hp
      have hlen := List.getElem?_eq_none_iff.mp hd
      have hlt := (List.getElem?_eq_some_iff.mp he).1
      omega

-- A forest may be added below any description.
theorem grow (ho : owner < m.size) : (m.grow owner roots ds).OwnerTree := by
  refine ⟨?root, fun i d hd h0 => ?owner, fun i j => ?micro, fun i => ?sorted⟩
  case root =>
    have hr : (m.grow owner roots ds).root.owner = m.root.owner := by
      rw [Model.grow, root_append, alter, root_mapDescriptions]
      split <;> rfl
    rw [hr, h.root]
  case owner =>
    cases Nat.lt_or_ge i m.size
    case inl hi =>
      obtain ⟨e, he⟩ := get?_of_lt_size hi
      obtain ⟨p, hp, hlt⟩ := h.owner i e he h0
      obtain ⟨d', hd', hp'⟩ := (m.ownedBy_grow_left owner roots ds hi).mpr ⟨e, he, hp⟩
      cases hd.symm.trans hd'
      exact ⟨p, hp', hlt⟩
    case inr hi =>
      rw [get?_grow_right _ _ hi] at hd
      cases hf.owned _ d hd
      case inl hp => exact ⟨owner, hp, by omega⟩
      case inr hp =>
        obtain ⟨p, hp, hlt⟩ := hp
        exact ⟨m.size + p, hp, by omega⟩
  case micro =>
    cases Nat.lt_or_ge j m.size
    case inl hj => rw [ownedBy_grow_left _ _ _ _ hj, h.mem_microOf_grow_old hf hj, h.micro]
    case inr hj =>
      obtain ⟨k, hk⟩ := Nat.exists_eq_add_of_le hj
      rw [hk, ownedBy_grow_right, h.mem_microOf_grow_new hf ho]
  case sorted =>
    cases Nat.lt_or_ge i m.size
    case inl hi =>
      rw [microOf_grow_left _ _ _ _ hi]
      by_cases hio : i = owner
      case pos =>
        rw [if_pos hio]
        refine List.pairwise_append.mpr ⟨h.sorted i, hf.sorted_roots, fun a ha b hb => ?_⟩
        exact Nat.lt_of_lt_of_le (h.lt_of_mem_microOf ha).2 (hf.le_of_mem_roots hb)
      case neg => simpa [hio] using h.sorted i
    case inr hi =>
      rw [microOf_grow_right _ _ _ _ hi]
      cases hd : ds[i - m.size]?
      case none => exact .nil
      case some d => exact hf.sorted d (List.mem_of_getElem? hd)

end

end OwnerTree

-- One description without content is a forest.
theorem forest_singleton (ho : owner < start) (hp : d.owner = some owner) (hm : d.micro = []) :
    Forest owner start [start] [d] where
  owned k e he := by
    have ⟨_, he⟩ : k = 0 ∧ d = e := by simpa [List.getElem?_singleton] using he
    exact .inl (he ▸ hp)
  mem_roots j := by
    rw [List.mem_singleton]
    constructor
    case mp => exact fun hj => ⟨0, d, hj, rfl, hp⟩
    case mpr =>
      intro ⟨k, e, hj, he, _⟩
      have ⟨hk, _⟩ : k = 0 ∧ d = e := by simpa [List.getElem?_singleton] using he
      omega
  mem_micro o e he j := by
    have ⟨_, he⟩ : o = 0 ∧ d = e := by simpa [List.getElem?_singleton] using he
    rw [← he, hm]
    refine iff_of_false List.not_mem_nil fun ⟨k, e', _, he', hp'⟩ => ?_
    have ⟨_, he'⟩ : k = 0 ∧ d = e' := by simpa [List.getElem?_singleton] using he'
    have := Option.some.inj (hp.symm.trans (he' ▸ hp'))
    omega
  sorted_roots := List.pairwise_singleton ..
  sorted e he := by
    rw [List.mem_singleton.mp he, hm]
    exact .nil

-- Owners in a grafted model: its root goes to the new owner, all else keeps its place.
theorem OwnerTree.owner_shifted (h : g.OwnerTree) :
    (∃ d, (g.shifted start name)[k]? = some d ∧ d.owner = some i) ↔
      k = rootIndex ∧ i = rootIndex ∨ ∃ o, i = start + o ∧ g.OwnedBy k o := by
  simp only [getElem?_shifted, OwnedBy]
  by_cases hk : k = rootIndex
  case pos =>
    subst hk
    have hr := h.root
    simp [get?_rootIndex, shift, hr, eq_comm]
  case neg =>
    cases hd : g.get? k
    case none => simp [hk]
    case some d =>
      obtain ⟨o, ho, _⟩ := h.owner k d hd hk
      simp [hk, shift, ho, Nat.add_comm, eq_comm]

theorem OwnerTree.forest_shifted (h : g.OwnerTree) (hs : 0 < start) :
    Forest rootIndex start [start] (g.shifted start name) where
  owned k d hd := by
    obtain ⟨e, he, hde⟩ := Option.map_eq_some_iff.mp (getElem?_shifted ▸ hd)
    by_cases hk : k = rootIndex
    case pos => exact .inl (hde ▸ by simp [hk, shift])
    case neg =>
      obtain ⟨o, ho, hlt⟩ := h.owner k e he hk
      exact .inr ⟨o, hde ▸ by simp [hk, shift, ho, Nat.add_comm], hlt⟩
  mem_roots j := by
    simp only [h.owner_shifted, exists_and_left]
    rw [List.mem_singleton]
    constructor
    case mp => exact fun hj => ⟨rootIndex, hj, .inl ⟨rfl, trivial⟩⟩
    case mpr =>
      rintro ⟨k, hj, hk⟩
      cases hk
      case inl hk => rw [hj, hk.1, rootIndex, Nat.add_zero]
      case inr hk =>
        obtain ⟨o, ho, _⟩ := hk
        simp only [rootIndex] at ho
        omega
  mem_micro o d hd j := by
    obtain ⟨e, he, hde⟩ := Option.map_eq_some_iff.mp (getElem?_shifted ▸ hd)
    simp only [h.owner_shifted, exists_and_left]
    have hmicro : d.micro = e.micro.map (· + start) := hde ▸ rfl
    have howned (c : Nat) : c ∈ e.micro ↔ g.OwnedBy c o := microOf_of_get? he ▸ h.micro o c
    rw [hmicro, List.mem_map]
    constructor
    case mp =>
      rintro ⟨c, hc, hcj⟩
      exact ⟨c, by omega, .inr ⟨o, rfl, (howned c).mp hc⟩⟩
    case mpr =>
      rintro ⟨k, hj, hk⟩
      cases hk
      case inl hk =>
        simp only [rootIndex] at hk
        omega
      case inr hk =>
        obtain ⟨o', ho', hk⟩ := hk
        cases Nat.add_left_cancel ho'
        exact ⟨k, (howned k).mpr hk, by omega⟩
  sorted_roots := List.pairwise_singleton ..
  sorted d hd := by
    obtain ⟨k, e, he, hde⟩ := exists_of_mem_shifted hd
    have hmicro : d.micro = e.micro.map (· + start) := hde ▸ rfl
    have hsorted := h.sorted k
    rw [microOf_of_get? he] at hsorted
    rw [hmicro, List.pairwise_map]
    exact hsorted.imp fun hlt => Nat.add_lt_add_right hlt start

namespace OwnerTree

theorem operation (h : m.OwnerTree) (ho : m.Operation n) : n.OwnerTree := by
  cases ho
  case add owner d hd ha =>
    obtain ⟨o, hlt⟩ : ∃ o, m.get? owner = some o := by
      cases hm : m.get? owner
      case none => simp [add, hm] at ha
      case some o => exact ⟨o, rfl⟩
    have hlt := lt_size_of_get? hlt
    exact add_eq_ok ha ▸ h.grow (forest_singleton hlt rfl hd.micro) hlt
  case change i d d' hd hop =>
    refine h.congr fun j => ?_
    rw [get?_set hd]
    split
    case isFalse => rfl
    case isTrue hj => simp [hj, hd, hop.owner, hop.micro]
  case buildTypes hb =>
    obtain ⟨types, hn⟩ := buildTypes_eq_ok hb
    exact hn ▸ h.congr fun _ => rfl
  case describe => exact h.congr fun _ => rfl

theorem graft (h : m.OwnerTree) (hg : g.OwnerTree) (hn : m.graft name g = .ok n) :
    n.OwnerTree := by
  have ⟨_, _, hw⟩ := graft_eq_ok_iff.mp hn
  have hs : Forest rootIndex m.size [m.size] (g.shifted m.size name) :=
    hg.forest_shifted m.size_pos
  have hf := h.grow hs m.size_pos
  refine hw ▸ hf.congr fun i => ?_
  rw [← graftBlock_singleton]
  rfl

theorem of_changed (h : m.OwnerTree) (hc : Changed SameKin m n) : n.OwnerTree := by
  have ⟨f, hf, hs⟩ := hc
  subst hf
  refine h.congr fun i => ?_
  cases hd : m.get? i
  case none => simp [hd]
  case some d => simp [hd, owner_of_bare (hs i d hd).1, micro_of_bare (hs i d hd).1]

end OwnerTree

theorem Built.ownerTree (h : m.Built) : m.OwnerTree := by
  induction h
  case ofRoot root registry m hr ho =>
    unfold Model.ofRoot at ho
    split at ho
    case isFalse => cases ho
    case isTrue =>
      cases ho
      have hget (i : Nat) (d : Description) (hd : [root][i]? = some d) :
          i = rootIndex ∧ root = d := by
        simpa [List.getElem?_singleton, rootIndex] using hd
      refine ⟨hr.owner, fun i d hd h0 => absurd (hget i d hd).1 h0, fun i j => ?micro,
        fun i => ?sorted⟩
      case micro =>
        refine iff_of_false (fun hm => ?_) fun hp => ?_
        · obtain ⟨d, hd, hm⟩ := exists_of_mem_microOf hm
          rw [← (hget i d hd).2, hr.micro] at hm
          exact List.not_mem_nil hm
        · obtain ⟨d, hd, hp⟩ := hp
          rw [← (hget j d hd).2, hr.owner] at hp
          cases hp
      case sorted =>
        unfold microOf
        cases hd : Model.get? _ i
        case none => exact .nil
        case some d =>
          rw [Option.map_some, Option.getD_some, ← (hget i d hd).2, hr.micro]
          exact .nil
  case operation ho hi => exact hi.operation ho
  case graft hg hm hi => exact hm.graft hi hg

end Model
end ModelAssembly
