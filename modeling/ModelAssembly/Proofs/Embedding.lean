import ModelAssembly.Proofs.Naming
import ModelAssembly.Proofs.Walk
/-!
Grafting as an embedding. A finalized model finds its place behind the descriptions of an open one,
and whoever looks at the copies sees what was to be seen of it before: contents, walks and parents
go over index by index. What the open model held stays as it was, except that its root contains the
graft. Only a link of its own that led nowhere may lead somewhere now.

Main statements: `Relocation.keepsParent` for parents; `walk_of_graft`, `walk_before_graft` and
`walk_root_of_graft` for walks; `find?_graft_eq_some_iff` for searches; `graft_embeds` puts them
together.
-/

namespace ModelAssembly

open Description

-- The link to the same description, when descriptions have gone to other places.
def ParentLink.relocate (f : Nat → Nat) : ParentLink → ParentLink
  | .declared i => .declared (f i)
  | .builtIn name => .builtIn name

theorem ParentLink.relocate_id (link : ParentLink) : link.relocate id = link := by
  cases link <;> rfl

-- The least of a set that consists of a part below `start` and of another one from there on.
theorem isLeast_iff_of_split {A B C : Set Nat} {start i : Nat} (hB : ∀ j ∈ B, j < start)
    (hl : ∀ j, j < start → (j ∈ A ↔ j ∈ B)) (hr : ∀ k, start + k ∈ A ↔ k ∈ C) :
    IsLeast A i ↔ IsLeast B i ∨ B = ∅ ∧ ∃ k, i = start + k ∧ IsLeast C k := by
  have hsplit (j : Nat) (hj : j ∈ A) : j ∈ B ∨ ∃ k ∈ C, j = start + k := by
    cases Nat.lt_or_ge j start
    case inl hlt => exact .inl ((hl j hlt).mp hj)
    case inr hge =>
      obtain ⟨k, rfl⟩ := Nat.exists_eq_add_of_le hge
      exact .inr ⟨k, (hr k).mp hj, rfl⟩
  have hsub (j : Nat) (hj : j ∈ B) : j ∈ A := (hl j (hB j hj)).mpr hj
  constructor
  case mp =>
    intro ⟨hi, hlow⟩
    cases hsplit i hi
    case inl hi => exact .inl ⟨hi, fun j hj => hlow (hsub j hj)⟩
    case inr hi =>
      obtain ⟨k, hk, rfl⟩ := hi
      refine .inr ⟨Set.eq_empty_iff_forall_notMem.mpr fun j hj => ?_, k, rfl, hk, fun c hc => ?_⟩
      · have hle := hlow (hsub j hj)
        have hlt := hB j hj
        omega
      · exact Nat.le_of_add_le_add_left (hlow ((hr c).mpr hc))
  case mpr =>
    rintro (⟨hi, hlow⟩ | ⟨hempty, k, rfl, hk, hlow⟩)
    case inl =>
      refine ⟨hsub i hi, fun j hj => ?_⟩
      cases hsplit j hj
      case inl hj => exact hlow hj
      case inr hj =>
        obtain ⟨c, _, rfl⟩ := hj
        exact Nat.le_of_lt (Nat.lt_of_lt_of_le (hB i hi) (Nat.le_add_right ..))
    case inr =>
      refine ⟨(hr k).mpr hk, fun j hj => ?_⟩
      cases hsplit j hj
      case inl hj => exact absurd (hempty ▸ hj) (Set.notMem_empty j)
      case inr hj =>
        obtain ⟨c, hc, rfl⟩ := hj
        exact Nat.add_le_add_left (hlow hc) start

namespace Model

variable {m n g : Model} {name searched : String} {i j k p : Nat} {d : Description}
  {f : Nat → Nat}

-- What kind of description stands at an index is settled when it is made.
theorem Operation.exists_get? (h : m.Operation n) (hd : m.get? i = some d) :
    ∃ e, n.get? i = some e ∧ e.kind = d.kind := by
  cases h
  case add ha =>
    rw [add_eq_ok ha, get?_grow_of_lt _ _ _ _ (lt_size_of_get? hd), hd]
    exact ⟨_, rfl, by split <;> rfl⟩
  case change j e e' he hop =>
    rw [get?_set he]
    split
    case isTrue hi =>
      cases hd.symm.trans (hi ▸ he)
      exact ⟨e', rfl, hop.kind⟩
    case isFalse => exact ⟨d, hd, rfl⟩
  case buildTypes hb =>
    have ⟨_, hn⟩ := buildTypes_eq_ok hb
    exact ⟨d, hn ▸ hd, rfl⟩
  case describe => exact ⟨d, hd, rfl⟩

theorem Built.kind_root (h : m.Built) : m.root.kind = .model := by
  induction h
  case ofRoot ho =>
    unfold Model.ofRoot at ho
    split at ho
    case isFalse => cases ho
    case isTrue hk =>
      cases ho
      exact of_decide_eq_true hk
  case operation m n _ ho hi =>
    obtain ⟨e, he, hk⟩ := ho.exists_get? (get?_rootIndex m)
    rw [root_eq_iff.mpr he, hk, hi]
  case graft h hi _ =>
    obtain ⟨_, _, hn⟩ := graft_eq_ok_iff.mp h
    rw [hn, root_withGrafts]
    exact hi

theorem parentOf_of_extends (h : m.Extends i p) : m.parentOf i = m.get? p := by
  have ⟨d, hd, hp⟩ := h
  simp [parentOf, hd, hp, resolve]

-- `n` has the descriptions of `m` in the places that `f` gives, and the links between them.
structure Relocation (m n : Model) (f : Nat → Nat) : Prop where
  registry : n.registry = m.registry
  get? : ∀ i d, m.get? i = some d →
    ∃ e, n.get? (f i) = some e ∧ e.name = d.name ∧ e.parent = d.parent.map (·.relocate f)

-- What stands at `f i` in `n` has the parent of what stands at `i` in `m`: the description where
-- `f` puts that parent, or the same built-in one.
structure KeepsParent (m n : Model) (f : Nat → Nat) (i : Nat) : Prop where
  name : n.parentName (f i) = m.parentName i
  declared : ∀ p, m.Extends i p → n.parentOf (f i) = n.get? (f p)
  builtIn : (∀ p, ¬ m.Extends i p) → n.parentOf (f i) = m.parentOf i

namespace Relocation

variable (h : Relocation m n f)

include h

theorem extends_of_extends (hp : m.Extends i p) : n.Extends (f i) (f p) := by
  have ⟨d, hd, hp⟩ := hp
  have ⟨e, he, _, hlink⟩ := h.get? i d hd
  exact ⟨e, he, by rw [hlink, hp]; rfl⟩

theorem parentOf_of_not_extends (hi : i < m.size) (hp : ∀ p, ¬ m.Extends i p) :
    n.parentOf (f i) = m.parentOf i := by
  have ⟨d, hd⟩ := get?_of_lt_size hi
  have ⟨e, he, _, hlink⟩ := h.get? i d hd
  cases hdp : d.parent
  case none => simp [parentOf, hd, he, hlink, hdp]
  case some link =>
    cases link
    case declared p => exact absurd ⟨d, hd, hdp⟩ (hp p)
    case builtIn name =>
      simp [parentOf, hd, he, hlink, hdp, ParentLink.relocate, resolve, h.registry]

theorem keepsParent (hi : i < m.size)
    (hout : ∀ p, m.Extends i p → m.get? p = none → n.get? (f p) = none) : m.KeepsParent n f i where
  name := by
    by_cases hp : ∃ p, m.Extends i p
    case neg =>
      rw [parentName, parentName, h.parentOf_of_not_extends hi (not_exists.mp hp)]
    case pos =>
      have ⟨p, hp⟩ := hp
      rw [parentName, parentName, parentOf_of_extends hp,
        parentOf_of_extends (h.extends_of_extends hp)]
      cases hd : m.get? p
      case none => rw [hout p hp hd]
      case some d =>
        have ⟨e, he, hn, _⟩ := h.get? p d hd
        rw [he, Option.map_some, Option.map_some, hn]
  declared _ hp := parentOf_of_extends (h.extends_of_extends hp)
  builtIn := h.parentOf_of_not_extends hi

end Relocation

section

variable (h : m.graft name g = .ok n)

include h

theorem size_graft : n.size = m.size + g.size := by
  have ⟨_, _, hn⟩ := graft_eq_ok_iff.mp h
  rw [hn, size_withGrafts_singleton]

theorem registry_graft : n.registry = m.registry := by
  have ⟨_, _, hn⟩ := graft_eq_ok_iff.mp h
  exact hn ▸ rfl

theorem get?_before_graft (hi : i < m.size) : n.get? i = (m.get? i).map fun d =>
    if i = rootIndex then { d with micro := d.micro ++ [m.size] } else d := by
  have ⟨_, _, hn⟩ := graft_eq_ok_iff.mp h
  exact hn ▸ get?_grow_of_lt _ _ _ _ hi

theorem get?_of_graft : n.get? (m.size + i) = (g.get? i).map
    (·.shift m.size (if i = rootIndex then some rootIndex else none) name) := by
  have ⟨_, _, hn⟩ := graft_eq_ok_iff.mp h
  have hget : n.get? (m.size + i) =
      (m.grow rootIndex [m.size] (graftBlock m.size [(name, g)])).get? (m.size + i) := hn ▸ rfl
  rw [hget, get?_grow_right _ _ (Nat.le_add_right ..), graftBlock_singleton, getElem?_shifted,
    Nat.add_sub_cancel_left]

-- A finalized root takes no graft in.
theorem get?_of_graft_of_finalized (hd : m.get? i = some d) (hf : d.isFinalized = true) :
    n.get? i = some d := by
  have ⟨_, ho, _⟩ := graft_eq_ok_iff.mp h
  have h0 : i ≠ rootIndex := by
    intro h0
    cases ho.symm.trans (root_eq_iff.mpr (h0 ▸ hd) ▸ hf)
  rw [get?_before_graft h (lt_size_of_get? hd), hd]
  simp [h0]

theorem microOf_before_graft (hi : i < m.size) (h0 : i ≠ rootIndex) :
    n.microOf i = m.microOf i := by
  rw [microOf, microOf, get?_before_graft h hi]
  simp [h0]

theorem microOf_root_of_graft : n.microOf rootIndex = m.microOf rootIndex ++ [m.size] := by
  have ⟨_, _, hn⟩ := graft_eq_ok_iff.mp h
  rw [microOf_of_get? (get?_rootIndex n), microOf_of_get? (get?_rootIndex m), hn, root_withGrafts]
  rfl

theorem microOf_of_graft : n.microOf (m.size + i) = (g.microOf i).map (· + m.size) := by
  rw [microOf, microOf, get?_of_graft h]
  cases g.get? i <;> rfl

theorem relocation_of_graft (hr : g.registry = m.registry) :
    Relocation g n (m.size + ·) where
  registry := (registry_graft h).trans hr.symm
  get? i d hd := by
    have he := get?_of_graft h (i := i)
    rw [hd] at he
    have hlink (link : ParentLink) : (match link with
        | .declared p => .declared (p + m.size)
        | .builtIn name => .builtIn name) = link.relocate (m.size + ·) := by
      cases link
      case declared p => rw [ParentLink.relocate, Nat.add_comm]
      case builtIn => rfl
    exact ⟨_, he, rfl, congrArg (d.parent.map ·) (funext hlink)⟩

theorem relocation_before_graft : Relocation m n id where
  registry := registry_graft h
  get? i d hd := by
    have he := get?_before_graft h (lt_size_of_get? hd)
    rw [hd] at he
    refine ⟨_, he, by split <;> rfl, ?_⟩
    simp only [ParentLink.relocate_id, Option.map_id_fun']
    split <;> rfl

-- A link that leads out of `g` leads out of `n`.
theorem keepsParent_of_graft (hr : g.registry = m.registry) (hi : i < g.size) :
    g.KeepsParent n (m.size + ·) i :=
  (relocation_of_graft h hr).keepsParent hi fun p _ hp => by
    rw [get?_of_graft h, hp]
    rfl

theorem keepsParent_before_graft (hi : i < m.size) (hin : ∀ p, m.Extends i p → p < m.size) :
    m.KeepsParent n id i :=
  (relocation_before_graft h).keepsParent hi fun p hp hout => by
    have ⟨_, hd⟩ := get?_of_lt_size (hin p hp)
    cases hout.symm.trans hd

theorem walk_of_graft (hg : g.OwnerTree) (hi : i < g.size) :
    n.walk (m.size + i) = (g.walk i).map (· + m.size) := by
  have hs := size_graft h
  rw [walk, walkTo_of_block hg (fun k _ => microOf_of_graft h) hi, hg.walkTo_eq hi (by omega)]

theorem walk_before_graft (hm : m.OwnerTree) (hi : i < m.size) (h0 : i ≠ rootIndex) :
    n.walk i = m.walk i := by
  have hs := size_graft h
  have hwalk : n.walkTo n.size (id i) = (m.walkTo n.size i).map id := by
    refine walkTo_map (P := fun i => i < m.size ∧ i ≠ rootIndex) (fun i _ j hj => ?_)
      (fun i ⟨hi, h0⟩ => ?_) ⟨hi, h0⟩
    · have ⟨hlt, hj⟩ := hm.lt_of_mem_microOf hj
      exact ⟨hj, Nat.ne_of_gt (Nat.zero_lt_of_lt hlt)⟩
    · rw [List.map_id, id, microOf_before_graft h hi h0]
  rw [List.map_id, hm.walkTo_eq hi (by omega)] at hwalk
  exact hwalk

theorem walk_root_of_graft (hm : m.OwnerTree) (hg : g.OwnerTree) :
    n.walk rootIndex = m.walk rootIndex ++ (g.walk rootIndex).map (· + m.size) := by
  have hold : (m.microOf rootIndex).flatMap n.walk = (m.microOf rootIndex).flatMap m.walk := by
    refine List.flatMap_congr fun j hj => ?_
    have ⟨hlt, hj⟩ := hm.lt_of_mem_microOf hj
    exact walk_before_graft h hm hj (Nat.ne_of_gt hlt)
  have hnew : n.walk m.size = (g.walk rootIndex).map (· + m.size) :=
    walk_of_graft h hg g.size_pos
  rw [(hm.graft hg h).walk_eq n.rootIndex_lt_size, hm.walk_eq m.rootIndex_lt_size,
    microOf_root_of_graft h, List.flatMap_append, hold, List.flatMap_singleton, hnew,
    List.cons_append]

-- Whoever had a name has it still.
theorem mem_bearers_before_graft {p : Description → Bool} (hi : i < m.size) :
    i ∈ n.bearers searched p ↔ i ∈ m.bearers searched p := by
  refine and_congr_right fun h0 => ?_
  rw [get?_before_graft h hi]
  simp [h0]

-- The grafted root, which is a model, is not searched for, and neither was it in `g`.
theorem mem_bearers_of_graft (hk : g.root.kind = .model) :
    m.size + k ∈ n.bearers searched (fun d => !d.isModel) ↔
      k ∈ g.bearers searched fun d => !d.isModel := by
  have h0 : m.size + k ≠ rootIndex := Nat.ne_of_gt (Nat.add_pos_left m.size_pos k)
  constructor
  case mp =>
    intro ⟨_, e, he, hn, hm⟩
    rw [get?_of_graft h] at he
    obtain ⟨d, hd, rfl⟩ := Option.map_eq_some_iff.mp he
    refine ⟨fun hroot => ?_, d, hd, hn, hm⟩
    subst hroot
    have hmodel : g.root.isModel = true := beq_iff_eq.mpr hk
    rw [root_eq_iff.mpr hd] at hmodel
    have hno : d.isModel = false := (Bool.not_eq_true' _).mp hm
    cases hmodel.symm.trans hno
  case mpr =>
    intro ⟨_, d, hd, hn, hm⟩
    have he := get?_of_graft h (i := k)
    rw [hd] at he
    exact ⟨h0, _, he, hn, hm⟩

-- Nothing that is grafted is own.
theorem bearers_own_of_graft : n.bearers searched (fun d => !d.isModel && d.isOwn) =
    m.bearers searched fun d => !d.isModel && d.isOwn := by
  ext i
  cases Nat.lt_or_ge i m.size
  case inl hi => exact mem_bearers_before_graft h hi
  case inr hi =>
    have ⟨k, hk⟩ := Nat.exists_eq_add_of_le hi
    refine iff_of_false (fun ⟨_, e, he, _, ho⟩ => ?_) fun ⟨_, e, he, _⟩ => ?_
    · rw [hk, get?_of_graft h] at he
      obtain ⟨d, _, rfl⟩ := Option.map_eq_some_iff.mp he
      cases (Bool.and_eq_true_iff.mp ho).2
    · exact Nat.not_lt.mpr hi (lt_size_of_get? he)

-- A search finds what it found before. Only where it found nothing, it goes on to the graft.
theorem find?_graft_eq_some_iff (hk : g.root.kind = .model) :
    n.find? searched = some i ↔ m.find? searched = some i ∨ m.find? searched = none ∧
      ∃ k, i = m.size + k ∧ IsLeast (g.bearers searched fun d => !d.isModel) k := by
  have hlt (j : Nat) (hj : j ∈ m.bearers searched fun d => !d.isModel) : j < m.size :=
    have ⟨_, _, hd, _⟩ := hj
    lt_size_of_get? hd
  have hleast : IsLeast (n.bearers searched fun d => !d.isModel) i ↔ _ :=
    isLeast_iff_of_split hlt (fun _ => mem_bearers_before_graft h)
      fun _ => mem_bearers_of_graft h hk
  have hempty (hm : (m.bearers searched fun d => !d.isModel) = ∅) :
      (m.bearers searched fun d => !d.isModel && d.isOwn) = ∅ := by
    refine Set.subset_eq_empty (fun j ⟨h0, d, hd, hn, hp⟩ => ?_) hm
    exact ⟨h0, d, hd, hn, (Bool.and_eq_true_iff.mp hp).1⟩
  rw [find?_eq_some_iff, find?_eq_some_iff, find?_eq_none_iff, bearers_own_of_graft h, hleast]
  tauto

end

-- Nothing grafted is found under a name that an own species or experiment has.
theorem isOwn_of_find? (hf : m.find? name = some i) (hd : m.get? i = some d)
    (hj : j ∈ m.bearers name fun d => !d.isModel && d.isOwn) : d.isOwn = true := by
  cases find?_eq_some_iff.mp hf
  case inl hl =>
    have ⟨_, e, he, _, ho⟩ := hl.1
    cases hd.symm.trans he
    exact (Bool.and_eq_true_iff.mp ho).2
  case inr hr => exact absurd (hr.1 ▸ hj) (Set.notMem_empty j)

theorem get?_grafts_of_graft (h : m.graft name g = .ok n) : n.grafts.get? name = some m.size := by
  have ⟨_, _, hn⟩ := graft_eq_ok_iff.mp h
  have hgrafts : n.grafts = m.grafts.insert name m.size := hn ▸ rfl
  rw [hgrafts, OrderedMap.get?_insert, if_pos rfl]

end Model

open Model

-- What comes of grafting a finalized model into an open one. The copies contain, walk and extend
-- each other as what they are copies of did, while for what was there before only the root changes,
-- by containing the copies. Links of what was there are as good as before if they led anywhere. A
-- search finds what it found before, or else the first that the graft has to offer.
theorem graft_embeds (m g : Model) (name : String) (hg : g.Built)
    (ho : m.root.isFinalized = false) (hf : g.root.isFinalized = true)
    (hr : g.registry = m.registry) : ∃ n, m.graft name g = .ok n ∧
    n.size = m.size + g.size ∧ n.grafts.get? name = some m.size ∧
    (∀ i, n.get? (m.size + i) = (g.get? i).map
      (·.shift m.size (if i = rootIndex then some rootIndex else none) name)) ∧
    (∀ i, i < m.size → n.get? i = (m.get? i).map fun d =>
      if i = rootIndex then { d with micro := d.micro ++ [m.size] } else d) ∧
    (∀ i, i < g.size → n.walk (m.size + i) = (g.walk i).map (· + m.size)) ∧
    (m.Built → (∀ i, i < m.size → i ≠ rootIndex → n.walk i = m.walk i) ∧
      n.walk rootIndex = m.walk rootIndex ++ (g.walk rootIndex).map (· + m.size)) ∧
    (∀ i, i < g.size → g.KeepsParent n (m.size + ·) i) ∧
    (∀ i, i < m.size → (∀ p, m.Extends i p → p < m.size) → m.KeepsParent n id i) ∧
    (∀ searched i, n.find? searched = some i ↔ m.find? searched = some i ∨
      m.find? searched = none ∧
        ∃ k, i = m.size + k ∧ IsLeast (g.bearers searched fun d => !d.isModel) k) ∧
    ∀ searched i d, n.find? searched = some i → n.get? i = some d →
      (n.bearers searched fun d => !d.isModel && d.isOwn).Nonempty → d.isOwn = true := by
  have h : m.graft name g = .ok (m.withGrafts [(name, g)]) := graft_eq_ok_iff.mpr ⟨hf, ho, rfl⟩
  exact ⟨_, h, size_graft h, get?_grafts_of_graft h, fun _ => get?_of_graft h,
    fun _ => get?_before_graft h, fun _ => walk_of_graft h hg.ownerTree,
    fun hm => ⟨fun _ => walk_before_graft h hm.ownerTree,
      walk_root_of_graft h hm.ownerTree hg.ownerTree⟩,
    fun _ => keepsParent_of_graft h hr, fun _ => keepsParent_before_graft h,
    fun _ _ => find?_graft_eq_some_iff h hg.kind_root,
    fun _ _ _ hfind hd ⟨_, hj⟩ => isOwn_of_find? hfind hd hj⟩

-- A burrow with a rabbit and a kit that extends it, and woods, under any name, with a wolf that
-- extends whatever `link` leads to.
def burrow : Except ModelError Model := do
  let m ← Model.ofRoot (.new .model .model "burrow" ∅) .defaults
  let m ← m.add rootIndex (.new .species .species "rabbit" ∅)
  let m ← m.add 1 (.new .species .species "kit" ∅)
  let m ← m.modify 2 (·.setParent (.declared 1))
  m.modify rootIndex fun d => .ok d.close

def woods (link : ParentLink) (name : String := "woods") : Except ModelError Model := do
  let m ← Model.ofRoot (.new .model .model name ∅) .defaults
  let m ← m.add rootIndex (.new .species .species "wolf" ∅)
  m.modify 1 (·.setParent link)

theorem built_burrow {m : Model} (h : burrow = .ok m) : m.Built := by
  have ⟨_, h₁, h⟩ := bind_eq_ok_iff.mp h
  have ⟨_, h₂, h⟩ := bind_eq_ok_iff.mp h
  have ⟨_, h₃, h⟩ := bind_eq_ok_iff.mp h
  have ⟨_, h₄, h⟩ := bind_eq_ok_iff.mp h
  have hadded := ((Model.Built.ofRoot (.new ..) h₁).operation (.add (.new ..) h₂)).operation
    (.add (.new ..) h₃)
  have hlinked := hadded.operations (.of_modify (fun _ _ => .setParent) h₄)
  exact hlinked.operations (.of_modify (fun _ _ hc => Except.ok.inj hc ▸ .close) h)

theorem built_woods {link : ParentLink} {name : String} {m : Model} (h : woods link name = .ok m) :
    m.Built := by
  have ⟨_, h₁, h⟩ := bind_eq_ok_iff.mp h
  have ⟨_, h₂, h⟩ := bind_eq_ok_iff.mp h
  exact ((Model.Built.ofRoot (.new ..) h₁).operation (.add (.new ..) h₂)).operations
    (.of_modify (fun _ _ => .setParent) h)

-- In the woods, the kit extends the rabbit as it did in the burrow.
theorem graft_embeds_burrow : ∃ m g n, woods (.builtIn "agent") = .ok m ∧ burrow = .ok g ∧
    m.graft "hole" g = .ok n ∧ n.walk rootIndex = [0, 1, 2, 3, 4] ∧
    n.parentName 4 = some "rabbit" ∧ n.find? "wolf" = some 1 := by
  have ⟨m, hm⟩ : ∃ m, woods (.builtIn "agent") = .ok m := ⟨_, rfl⟩
  have ⟨g, hg⟩ : ∃ g, burrow = .ok g := ⟨_, rfl⟩
  have ⟨hms, hmo, hmw, hmf⟩ : m.size = 2 ∧ m.root.isFinalized = false ∧
      m.walk rootIndex = [0, 1] ∧ m.find? "wolf" = some 1 := by
    cases hm
    decide +kernel
  have ⟨hgs, hgo, hgw, hgn⟩ : g.size = 3 ∧ g.root.isFinalized = true ∧
      g.walk rootIndex = [0, 1, 2] ∧ g.parentName 2 = some "rabbit" := by
    cases hg
    decide +kernel
  have hr : g.registry = m.registry := by
    cases hm
    cases hg
    rfl
  have ⟨n, hn, _, _, _, _, _, hwalks, hparents, _, hfind, _⟩ :=
    graft_embeds m g "hole" (built_burrow hg) hmo hgo hr
  have hwalk := (hwalks (built_woods hm)).2
  have hparent : n.parentName (m.size + 2) = g.parentName 2 := (hparents 2 (by omega)).name
  rw [hms] at hparent hwalk
  exact ⟨m, g, n, hm, hg, hn, by rw [hwalk, hmw, hgw]; rfl, hparent.trans hgn,
    (hfind "wolf" 1).mpr (.inl hmf)⟩

-- A wolf whose link leads nowhere extends the burrow when it is grafted, and in woods that are
-- called `rabbit`, whoever searches for that name finds the rabbit of the burrow.
theorem graft_shows_through_gaps : ∃ m g n, woods (.declared 2) "rabbit" = .ok m ∧
    burrow = .ok g ∧ m.Built ∧ g.Built ∧ m.root.isFinalized = false ∧ g.root.isFinalized = true ∧
    g.registry = m.registry ∧ m.graft "hole" g = .ok n ∧
    (m.parentName 1 = none ∧ n.parentName 1 = some "burrow") ∧
    n.root.name = "rabbit" ∧ n.root.isOwn = true ∧
    n.find? "rabbit" = some 3 ∧ (n.get? 3).map (·.isOwn) = some false := by
  have ⟨m, hm⟩ : ∃ m, woods (.declared 2) "rabbit" = .ok m := ⟨_, rfl⟩
  have ⟨g, hg⟩ : ∃ g, burrow = .ok g := ⟨_, rfl⟩
  have ⟨n, hn⟩ : ∃ n, m.graft "hole" g = .ok n := by
    cases hm
    cases hg
    exact ⟨_, rfl⟩
  refine ⟨m, g, n, hm, hg, built_woods hm, built_burrow hg, ?_⟩
  cases hm
  cases hg
  cases hn
  exact ⟨rfl, rfl, rfl, rfl, by decide +kernel⟩

end ModelAssembly
