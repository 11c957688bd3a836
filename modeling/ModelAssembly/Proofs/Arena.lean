import ModelAssembly.Model.Basic
import ModelAssembly.Proofs.Outcome
import Mathlib.Logic.Relation
/-!
The arena of a model: look-ups after changes, and changes that go through all descriptions.

Main statements: `get?_mapDescriptions`; `modify_edit` and `foldlM_edit` say what one edit and a
loop of edits come to; `Changed` relates two models that differ only description by description.
`InRange` and `Acyclic` are what a sound model keeps to.
-/

namespace ModelAssembly

section

variable {α : Type} {f g : Nat → α → α} {l : List α}

theorem mapIdx_congr (h : ∀ i a, l[i]? = some a → f i a = g i a) : l.mapIdx f = l.mapIdx g := by
  apply List.ext_getElem?
  intro i
  cases ha : l[i]?
  case none => simp [ha]
  case some a => simp [ha, h i a ha]

theorem mapIdx_eq_self (h : ∀ i a, l[i]? = some a → f i a = a) : l.mapIdx f = l := by
  apply List.ext_getElem?
  intro i
  cases ha : l[i]?
  case none => simp [ha]
  case some a => simp [ha, h i a ha]

end

namespace Description

-- What placement settles about a description: all but its parent, its members and the lock.
def bare (d : Description) : Description :=
  { d with parent := none, members := ∅, isFinalized := false }

section

variable {d d' : Description} (h : d'.bare = d.bare)

include h

theorem kind_of_bare : d'.kind = d.kind := by
  have hk := congrArg Description.kind h
  exact hk

theorem name_of_bare : d'.name = d.name := by
  have hn := congrArg Description.name h
  exact hn

theorem facets_of_bare : d'.facets = d.facets := by
  have hf := congrArg Description.facets h
  exact hf

theorem micro_of_bare : d'.micro = d.micro := by
  have hm := congrArg Description.micro h
  exact hm

theorem isOwn_of_bare : d'.isOwn = d.isOwn := by
  have ho := congrArg isOwn h
  exact ho

theorem isBuiltIn_of_bare : d'.isBuiltIn = d.isBuiltIn := by
  have hb := congrArg isBuiltIn h
  exact hb

theorem declaredAs_of_bare : d'.declaredAs = d.declaredAs := by
  have hd := congrArg Description.declaredAs h
  exact hd

theorem isAbstract_of_bare : d'.isAbstract = d.isAbstract := by
  have ha := congrArg Description.isAbstract h
  exact ha

end

theorem edit_of_open {d : Description} (h : d.isFinalized = false) (f : Description → Description) :
    d.edit f = .ok (f d) := by
  simp [edit, h]

end Description

namespace Model

variable {m m' n : Model} {i j : Nat} {d d' : Description}

theorem ext_fields (hd : m.descriptions = n.descriptions) (hk : m.knownAs = n.knownAs)
    (hp : m.projectPath = n.projectPath) (hm : m.modelPath = n.modelPath)
    (hi : m.importedModels = n.importedModels) (ha : m.alternatePaths = n.alternatePaths)
    (hs : m.microSpeciesNames = n.microSpeciesNames) (hg : m.grafts = n.grafts)
    (ht : m.types = n.types) (hr : m.registry = n.registry) : m = n := by
  cases m
  cases n
  simp_all

theorem lt_size_of_get? (h : m.get? i = some d) : i < m.size :=
  List.getElem?_eq_some_iff.mp h |>.1

theorem get?_of_lt_size (h : i < m.size) : ∃ d, m.get? i = some d :=
  ⟨_, List.getElem?_eq_getElem h⟩

theorem get_eq_ok_iff : m.get i = .ok d ↔ m.get? i = some d := by
  unfold get
  cases m.get? i <;> simp

theorem get?_rootIndex (m : Model) : m.get? rootIndex = some m.root := by
  have ⟨ds, hn⟩ : ∃ ds, m.descriptions = m.root :: ds := ⟨_, (List.cons_head_tail m.nonempty).symm⟩
  simp [get?, rootIndex, hn]

theorem root_eq_iff : m.root = d ↔ m.get? rootIndex = some d := by
  simp [get?_rootIndex]

theorem size_pos (m : Model) : 0 < m.size :=
  List.length_pos_iff.mpr m.nonempty

theorem microOf_of_get? (h : m.get? i = some d) : m.microOf i = d.micro := by
  simp [microOf, h]

theorem exists_of_mem_microOf (h : j ∈ m.microOf i) : ∃ d, m.get? i = some d ∧ j ∈ d.micro := by
  cases hd : m.get? i
  case none => simp [microOf, hd] at h
  case some d => exact ⟨d, rfl, microOf_of_get? hd ▸ h⟩

theorem modify_eq_ok_iff {change : Description → Except ModelError Description} :
    m.modify i change = .ok m' ↔
      ∃ d d', m.get? i = some d ∧ change d = .ok d' ∧ m.set i d' = m' := by
  unfold modify
  constructor
  case mp =>
    intro h
    have ⟨d, hd, hd'⟩ := bind_eq_ok_iff.mp h
    have ⟨d', hc, hs⟩ := bind_eq_ok_iff.mp hd'
    exact ⟨d, d', get_eq_ok_iff.mp hd, hc, Except.ok.inj hs⟩
  case mpr =>
    intro ⟨d, d', hd, hc, hs⟩
    refine bind_eq_ok_iff.mpr ⟨d, get_eq_ok_iff.mpr hd, ?_⟩
    exact bind_eq_ok_iff.mpr ⟨d', hc, congrArg Except.ok hs⟩

theorem modify_of_none {f : Description → Except ModelError Description} (hd : m.get? i = none) :
    m.modify i f = .error (.outside i) := by
  simp [modify, get, hd, bind, Except.bind]

theorem modify_of_get? {f : Description → Except ModelError Description} (hd : m.get? i = some d) :
    m.modify i f = (f d).map (m.set i) := by
  simp only [modify, get, hd, bind, Except.bind]
  cases f d <;> rfl

theorem modify_eq_error_iff {f : Description → Except ModelError Description} {e : ModelError} :
    m.modify i f = .error e ↔ m.get? i = none ∧ e = .outside i ∨
      ∃ d, m.get? i = some d ∧ f d = .error e := by
  cases hd : m.get? i
  case none =>
    rw [modify_of_none hd]
    simp [eq_comm]
  case some d =>
    rw [modify_of_get? hd]
    cases hf : f d <;> simp [hf, Except.map]

-- Changes every description, by a rule that may depend on its index.
def mapDescriptions (m : Model) (f : Nat → Description → Description) : Model :=
  { m with
    descriptions := m.descriptions.mapIdx f
    nonempty := by simpa using m.nonempty }

section

variable {f g : Nat → Description → Description}

@[simp]
theorem get?_mapDescriptions : (m.mapDescriptions f).get? i = (m.get? i).map (f i) := by
  simp [get?, mapDescriptions]

@[simp]
theorem size_mapDescriptions : (m.mapDescriptions f).size = m.size := by
  simp [size, mapDescriptions]

@[simp]
theorem registry_mapDescriptions : (m.mapDescriptions f).registry = m.registry := rfl

@[simp]
theorem root_mapDescriptions : (m.mapDescriptions f).root = f rootIndex m.root := by
  rw [root_eq_iff, get?_mapDescriptions, get?_rootIndex]
  rfl

theorem mapDescriptions_mapDescriptions :
    (m.mapDescriptions f).mapDescriptions g = m.mapDescriptions fun i d => g i (f i d) := by
  simp [mapDescriptions, Function.comp_def]

theorem mapDescriptions_congr (h : ∀ i d, m.get? i = some d → f i d = g i d) :
    m.mapDescriptions f = m.mapDescriptions g := by
  simp [mapDescriptions, mapIdx_congr h]

theorem mapDescriptions_id (h : ∀ i d, m.get? i = some d → f i d = d) :
    m.mapDescriptions f = m := by
  simp [mapDescriptions, mapIdx_eq_self h]

end

-- Changes the description at one index.
def alter (m : Model) (i : Nat) (f : Description → Description) : Model :=
  m.mapDescriptions fun j d => if j = i then f d else d

@[simp]
theorem size_alter {f : Description → Description} : (m.alter i f).size = m.size := by
  simp [alter]

@[simp]
theorem get?_alter {f : Description → Description} :
    (m.alter i f).get? j = (m.get? j).map fun d => if j = i then f d else d := by
  simp [alter]

theorem set_eq_alter (h : m.get? i = some d) (f : Description → Description) :
    m.set i (f d) = m.alter i f := by
  have he : m.descriptions.set i (f d) =
      m.descriptions.mapIdx fun j x => if j = i then f x else x := by
    apply List.ext_getElem?
    intro j
    by_cases hj : i = j
    case pos =>
      subst hj
      have ⟨hl, hi⟩ := List.getElem?_eq_some_iff.mp h
      simp [hi, hl]
    case neg =>
      have hj' : j ≠ i := fun he => hj he.symm
      cases hd : m.descriptions[j]? <;> simp [hj, hj', hd]
  simp [set, alter, mapDescriptions, he]

theorem modify_edit (h : m.get? i = some d) (ho : d.isFinalized = false)
    (f : Description → Description) : m.modify i (·.edit f) = .ok (m.alter i f) :=
  modify_eq_ok_iff.mpr ⟨d, f d, h, Description.edit_of_open ho f, set_eq_alter h f⟩

-- What a loop of edits does to the description at `i`: those that are meant for it, in order.
def editsAt {β : Type} (at' : β → Nat) (f : β → Description → Description) (l : List β) (i : Nat)
    (d : Description) : Description :=
  (l.filter fun x => at' x = i).foldl (fun d x => f x d) d

-- A loop of edits of open descriptions, none of which is closed by an edit, goes through.
theorem foldlM_edit {β : Type} {at' : β → Nat} {f : β → Description → Description} {l : List β}
    (ho : ∀ x ∈ l, ∃ d, m.get? (at' x) = some d ∧ d.isFinalized = false)
    (hf : ∀ x d, (f x d).isFinalized = d.isFinalized) :
    l.foldlM (fun m x => m.modify (at' x) (·.edit (f x))) m =
      .ok (m.mapDescriptions (editsAt at' f l)) := by
  induction l generalizing m
  case nil =>
    rw [mapDescriptions_id (by simp [editsAt])]
    rfl
  case cons x l hi =>
    have ⟨d, hd, hdo⟩ := ho x List.mem_cons_self
    have ho' (y) (hy : y ∈ l) :
        ∃ d, (m.alter (at' x) (f x)).get? (at' y) = some d ∧ d.isFinalized = false := by
      have ⟨e, he, heo⟩ := ho y (List.mem_cons_of_mem x hy)
      refine ⟨if at' y = at' x then f x e else e, by simp [alter, he], ?_⟩
      split <;> simp [hf, heo]
    have h := hi ho'
    rw [List.foldlM_cons, modify_edit hd hdo]
    apply h.trans
    rw [alter, mapDescriptions_mapDescriptions]
    congr 2
    funext i e
    by_cases hx : at' x = i
    case pos => simp [editsAt, hx]
    case neg =>
      have hx' : i ≠ at' x := fun he => hx he.symm
      simp [editsAt, hx, hx']

-- `m'` is `m` with other descriptions in the places of some, each as `R` allows.
def Changed (R : Description → Description → Prop) (m m' : Model) : Prop :=
  ∃ f, m' = m.mapDescriptions f ∧ ∀ i d, m.get? i = some d → R d (f i d)

namespace Changed

variable {R S : Description → Description → Prop}

theorem refl (h : ∀ d, R d d) (m : Model) : Changed R m m :=
  ⟨fun _ d => d, (mapDescriptions_id fun _ _ _ => rfl).symm, fun _ d _ => h d⟩

theorem trans (ht : ∀ a b c, R a b → R b c → R a c) (h₁ : Changed R m m') (h₂ : Changed R m' n) :
    Changed R m n := by
  have ⟨f, hf, hR⟩ := h₁
  have ⟨g, hg, hR'⟩ := h₂
  subst hf hg
  refine ⟨fun i d => g i (f i d), mapDescriptions_mapDescriptions, ?_⟩
  intro i d hd
  exact ht d (f i d) _ (hR i d hd) (hR' i (f i d) (by simp [hd]))

theorem mono (hi : ∀ a b, R a b → S a b) (h : Changed R m m') : Changed S m m' := by
  have ⟨f, hf, hR⟩ := h
  exact ⟨f, hf, fun i d hd => hi _ _ (hR i d hd)⟩

theorem of_set (hr : ∀ d, R d d) (hd : m.get? i = some d) (h : R d d') :
    Changed R m (m.set i d') := by
  refine ⟨_, set_eq_alter hd fun _ => d', ?_⟩
  intro j e he
  by_cases hj : j = i
  case pos =>
    subst hj
    cases hd.symm.trans he
    simpa using h
  case neg => simpa [hj] using hr e

theorem get? (h : Changed R m m') (hd : m.get? i = some d) :
    ∃ d', m'.get? i = some d' ∧ R d d' := by
  have ⟨f, hf, hR⟩ := h
  exact ⟨f i d, by simp [hf, hd], hR i d hd⟩

theorem get?_rev (h : Changed R m m') (hd : m'.get? i = some d') :
    ∃ d, m.get? i = some d ∧ R d d' := by
  have ⟨f, hf, hR⟩ := h
  subst hf
  have ⟨d, hm, he⟩ := Option.map_eq_some_iff.mp (get?_mapDescriptions ▸ hd)
  exact ⟨d, hm, he ▸ hR i d hm⟩

theorem ext (h : Changed R m n) (h' : Changed S m m') (he : ∀ i, n.get? i = m'.get? i) :
    n = m' := by
  have ⟨f, hf, _⟩ := h
  have ⟨g, hg, _⟩ := h'
  subst hf hg
  refine mapDescriptions_congr fun i d hd => ?_
  simpa [hd] using he i

theorem size (h : Changed R m m') : m'.size = m.size := by
  have ⟨f, hf, _⟩ := h
  simp [hf]

theorem registry (h : Changed R m m') : m'.registry = m.registry := by
  have ⟨f, hf, _⟩ := h
  simp [hf]

theorem microSpeciesNames (h : Changed R m m') : m'.microSpeciesNames = m.microSpeciesNames := by
  have ⟨f, hf, _⟩ := h
  exact hf ▸ rfl

theorem grafts (h : Changed R m m') : m'.grafts = m.grafts := by
  have ⟨f, hf, _⟩ := h
  exact hf ▸ rfl

theorem types (h : Changed R m m') : m'.types = m.types := by
  have ⟨f, hf, _⟩ := h
  exact hf ▸ rfl

end Changed

section

variable {n k : Nat}

theorem walkTo_mono (h : i ∈ m.walkTo n j) (hk : n ≤ k) : i ∈ m.walkTo k j := by
  induction n generalizing j k
  case zero => simp [walkTo] at h
  case succ n hi =>
    cases k
    case zero => omega
    case succ k =>
      simp only [walkTo, List.mem_cons, List.mem_flatMap] at h ⊢
      exact h.imp id fun ⟨c, hc, h⟩ => ⟨c, hc, hi h (Nat.le_of_succ_le_succ hk)⟩

theorem mem_walkTo_succ {o : Nat} (ho : o ∈ m.walkTo n j) (hi : i ∈ m.microOf o) :
    i ∈ m.walkTo (n + 1) j := by
  induction n generalizing j
  case zero => simp [walkTo] at ho
  case succ n hin =>
    rw [walkTo, List.mem_cons, List.mem_flatMap]
    rw [walkTo, List.mem_cons, List.mem_flatMap] at ho
    cases ho
    case inl he => exact .inr ⟨i, he ▸ hi, by simp [walkTo]⟩
    case inr h =>
      have ⟨c, hc, ho⟩ := h
      exact .inr ⟨c, hc, hin ho⟩

theorem microOf_mapDescriptions {f : Nat → Description → Description}
    (hf : ∀ i d, (f i d).micro = d.micro) : (m.mapDescriptions f).microOf i = m.microOf i := by
  cases h : m.get? i <;> simp [microOf, h, hf]

theorem walk_mapDescriptions {f : Nat → Description → Description}
    (hf : ∀ i d, (f i d).micro = d.micro) : (m.mapDescriptions f).walk i = m.walk i := by
  have h (n j : Nat) : (m.mapDescriptions f).walkTo n j = m.walkTo n j := by
    induction n generalizing j
    case zero => rfl
    case succ n hi =>
      have he : (m.mapDescriptions f).walkTo n = m.walkTo n := funext hi
      rw [walkTo, walkTo, microOf_mapDescriptions hf, he]
  rw [walk, walk, size_mapDescriptions]
  exact h m.size i

end

-- The description at `i` names that at `j` as its parent.
def Extends (m : Model) (i j : Nat) : Prop :=
  ∃ d, m.get? i = some d ∧ d.parent = some (.declared j)

-- Following parents never leads back.
def Acyclic (m : Model) : Prop := ∀ i, ¬ Relation.TransGen m.Extends i i

-- All that a model contains is in it.
def Contained (m : Model) : Prop := ∀ i d, m.get? i = some d → ∀ j ∈ d.micro, j < m.size

theorem Contained.lt_of_mem_walk (h : m.Contained) (hi : i ∈ m.walk rootIndex) : i < m.size := by
  have hw (n j : Nat) (hj : j < m.size) (hi : i ∈ m.walkTo n j) : i < m.size := by
    induction n generalizing j
    case zero => simp [walkTo] at hi
    case succ n hin =>
      rw [walkTo, List.mem_cons, List.mem_flatMap] at hi
      cases hi
      case inl he => exact he ▸ hj
      case inr hc =>
        have ⟨c, hc, hi⟩ := hc
        have ⟨d, hd, hcd⟩ := exists_of_mem_microOf hc
        exact hin c (h j d hd c hcd) hi
  exact hw m.size rootIndex m.size_pos hi

-- The indices that a model names are those of descriptions. Parents need not keep to this, as any
-- index can be set as a parent. But types are built from the names of all declared parents, and to
-- ask for one that is not there is the error `outside`: there the program aborts.
structure InRange (m : Model) : Prop where
  micro : ∀ i j, j ∈ m.microOf i → j < m.size
  parent : ∀ i j, m.Extends i j → j < m.size

theorem InRange.contained (h : m.InRange) : m.Contained := fun i _ hd j hj =>
  h.micro i j (microOf_of_get? hd ▸ hj)

theorem Contained.inRange (h : m.Contained) (hp : ∀ i j, m.Extends i j → j < m.size) :
    m.InRange := by
  refine ⟨fun i j hj => ?_, hp⟩
  have ⟨d, hd, hj⟩ := exists_of_mem_microOf hj
  exact h i d hd j hj

end Model
end ModelAssembly
