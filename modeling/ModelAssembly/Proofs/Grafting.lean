import ModelAssembly.Assembly.Assembler
import ModelAssembly.Proofs.Placement
import Mathlib.Algebra.GroupWithZero.Nat
/-!
Grafting in closed form. The descriptions of the grafted models stand in blocks, one behind the
other in the order of the grafts, and the root contains the first of each block.

Main statements: `graft_eq_ok_iff` and `foldlM_addGraft_eq_ok` say which model comes out of one
graft and of all grafts; `graftBlock_append` and `graftRoots_append` take the blocks apart;
`extends_iff_of_shift` says that grafts keep their links; `isOwn_of_mem_graftBlock` says that no
grafted description is one of the model's own.
-/

namespace ModelAssembly

namespace Model

variable {m m' g : Model} {name : String} {start i : Nat} {es xs ys : List (String × Model)}
  {e : String × Model}

-- The descriptions of `g` as they stand from `start` on after it was grafted.
def shifted (g : Model) (start : Nat) (name : String) : List Description :=
  g.descriptions.zipIdx.map fun d =>
    d.1.shift start (if d.2 = rootIndex then some rootIndex else none) name

@[simp]
theorem length_shifted : (g.shifted start name).length = g.size := by
  simp [shifted, size]

def graftRoots (start : Nat) : List (String × Model) → List Nat
  | [] => []
  | e :: es => start :: graftRoots (start + e.2.size) es

def graftBlock (start : Nat) : List (String × Model) → List Description
  | [] => []
  | e :: es => e.2.shifted start e.1 ++ graftBlock (start + e.2.size) es

-- All of `es` grafted, in order.
def withGrafts (m : Model) (es : List (String × Model)) : Model :=
  { m.grow rootIndex (graftRoots m.size es) (graftBlock m.size es) with
    alternatePaths := es.foldl (fun s e => s.insertAll e.2.alternatePaths.toList) m.alternatePaths
    grafts := m.grafts.insertAll ((es.map Prod.fst).zip (graftRoots m.size es)) }

theorem graft_eq_ok_iff :
    m.graft name g = .ok m' ↔
      g.root.isFinalized = true ∧ m.root.isFinalized = false ∧ m' = m.withGrafts [(name, g)] := by
  have hw : m.withGrafts [(name, g)] =
      { (m.set rootIndex { m.root with micro := m.root.micro ++ [m.size] }).append
          (g.shifted m.size name) with
        alternatePaths := m.alternatePaths.insertAll g.alternatePaths.toList
        grafts := m.grafts.insert name m.size } := by
    have hs := set_eq_alter (get?_rootIndex m) fun d => { d with micro := d.micro ++ [m.size] }
    rw [hs]
    simp [withGrafts, grow, graftRoots, graftBlock, OrderedMap.insertAll]
  cases hg : g.root.isFinalized
  case false => simp [graft, hg, throw, throwThe, MonadExceptOf.throw, bind, Except.bind]
  case true =>
    cases hm : m.root.isFinalized
    case true => simp [graft, hg, Description.addMicro, Description.edit, hm, bind, Except.bind]
    case false =>
      rw [hw]
      simp only [graft, hg, Description.addMicro, Description.edit_of_open hm]
      exact ⟨fun h => ⟨trivial, trivial, (Except.ok.inj h).symm⟩,
        fun h => congrArg Except.ok h.2.2.symm⟩

theorem graft_of_open (hg : g.root.isFinalized = false) :
    m.graft name g = .error (.notFinalized g.name) := by
  simp [graft, hg, throw, throwThe, MonadExceptOf.throw, bind, Except.bind]

theorem graft_of_finalized (hg : g.root.isFinalized = true) (hf : m.root.isFinalized = true) :
    m.graft name g = .error (.finalized m.name) := by
  simp [graft, hg, Description.addMicro, Description.edit, hf, bind, Except.bind]
  rfl

theorem graft_eq_error_iff {e : ModelError} : m.graft name g = .error e ↔
    g.root.isFinalized = false ∧ e = .notFinalized g.name ∨
      g.root.isFinalized = true ∧ m.root.isFinalized = true ∧ e = .finalized m.name := by
  constructor
  case mp =>
    intro h
    cases hg : g.root.isFinalized
    case false =>
      cases h.symm.trans (graft_of_open hg)
      exact .inl ⟨rfl, rfl⟩
    case true =>
      cases hf : m.root.isFinalized
      case false => cases h.symm.trans (graft_eq_ok_iff.mpr ⟨hg, hf, rfl⟩)
      case true =>
        cases h.symm.trans (graft_of_finalized hg hf)
        exact .inr ⟨rfl, rfl, rfl⟩
  case mpr =>
    rintro (⟨hg, rfl⟩ | ⟨hg, hf, rfl⟩)
    case inl => exact graft_of_open hg
    case inr => exact graft_of_finalized hg hf

theorem size_withGrafts_singleton : (m.withGrafts [(name, g)]).size = m.size + g.size :=
  (size_grow ..).trans (by simp [graftBlock])

theorem withGrafts_cons :
    m.withGrafts ((name, g) :: es) = (m.withGrafts [(name, g)]).withGrafts es := by
  have hs : (m.withGrafts [(name, g)]).size = m.size + g.size := size_withGrafts_singleton
  have hd : ((m.withGrafts [(name, g)]).withGrafts es).descriptions =
      ((m.grow rootIndex [m.size] (g.shifted m.size name)).grow rootIndex
        (graftRoots (m.size + g.size) es) (graftBlock (m.size + g.size) es)).descriptions := by
    simp only [withGrafts, grow, append, alter, mapDescriptions, graftRoots, graftBlock,
      List.append_nil, size] at hs ⊢
    simp [hs]
  apply ext_fields <;> try rfl
  case hd => exact (hd.trans (congrArg descriptions (grow_grow m.size_pos ..))).symm
  case hg =>
    have hg : ((m.withGrafts [(name, g)]).withGrafts es).grafts =
        (m.grafts.insert name m.size).insertAll
          ((es.map Prod.fst).zip (graftRoots (m.size + g.size) es)) := by
      rw [← hs]
      rfl
    rw [hg]
    rfl

-- What comes of grafting models one after the other.
theorem foldlM_addGraft_eq_ok (h : (es.foldlM Assembler.addGraft m).result = .ok m') :
    m' = m.withGrafts es := by
  induction es generalizing m
  case nil =>
    have hw : m.withGrafts [] = m.grow rootIndex [] [] := rfl
    rw [hw, grow_nil]
    exact (Except.ok.inj h).symm
  case cons e es hi =>
    have ⟨name, g⟩ := e
    rw [List.foldlM_cons] at h
    have ⟨n, hn, h'⟩ := Outcome.bind_eq_ok_iff.mp h
    have ⟨_, _, he⟩ := graft_eq_ok_iff.mp (mapError_eq_ok_iff.mp hn)
    rw [withGrafts_cons, ← he]
    exact hi h'

theorem root_withGrafts :
    (m.withGrafts es).root = { m.root with micro := m.root.micro ++ graftRoots m.size es } :=
  root_grow ..

-- Finalized models can be grafted.
theorem foldlM_addGraft_of_finalized (hm : m.root.isFinalized = false)
    (hg : ∀ e ∈ es, e.2.root.isFinalized = true) :
    (es.foldlM Assembler.addGraft m).result = .ok (m.withGrafts es) := by
  have h : ∃ m', (es.foldlM Assembler.addGraft m).result = .ok m' := by
    induction es generalizing m
    case nil => exact ⟨m, rfl⟩
    case cons e es hi =>
      have he : m.graft e.1 e.2 = .ok (m.withGrafts [(e.1, e.2)]) :=
        graft_eq_ok_iff.mpr ⟨hg e List.mem_cons_self, hm, rfl⟩
      have hr : (m.withGrafts [(e.1, e.2)]).root.isFinalized = false := by
        rw [root_withGrafts]
        exact hm
      have ⟨m', h⟩ := hi hr fun x hx => hg x (List.mem_cons_of_mem e hx)
      refine ⟨m', ?_⟩
      rw [List.foldlM_cons]
      exact Outcome.bind_eq_ok_iff.mpr ⟨_, mapError_eq_ok_iff.mpr he, h⟩
  have ⟨m', h⟩ := h
  exact foldlM_addGraft_eq_ok h ▸ h

theorem size_withGrafts : (m.withGrafts es).size = m.size + (graftBlock m.size es).length :=
  size_grow ..

theorem lt_of_mem_graftRoots (h : i ∈ graftRoots start es) :
    start ≤ i ∧ i < start + (graftBlock start es).length := by
  induction es generalizing start
  case nil => simp [graftRoots] at h
  case cons e es hi =>
    have hp := e.2.size_pos
    simp only [graftRoots, List.mem_cons] at h
    simp only [graftBlock, List.length_append, length_shifted]
    cases h
    case inl h => omega
    case inr h =>
      have ⟨h₁, h₂⟩ := hi h
      omega

-- How many descriptions the models in `es` have.
def sizes (es : List (String × Model)) : Nat := (es.map (·.2.size)).sum

theorem sizes_cons : sizes (e :: es) = e.2.size + sizes es := List.sum_cons

theorem sizes_append_cons : sizes (xs ++ e :: ys) = sizes xs + (e.2.size + sizes ys) := by
  rw [sizes, List.map_append, List.sum_append, List.map_cons, List.sum_cons]
  rfl

theorem length_graftBlock : (graftBlock start es).length = sizes es := by
  induction es generalizing start
  case nil => rfl
  case cons e es hi => rw [graftBlock, List.length_append, length_shifted, hi, sizes_cons]

theorem length_graftRoots : (graftRoots start es).length = es.length := by
  induction es generalizing start
  case nil => rfl
  case cons e es hi => rw [graftRoots, List.length_cons, hi, List.length_cons]

theorem graftBlock_append : graftBlock start (xs ++ ys) =
    graftBlock start xs ++ graftBlock (start + sizes xs) ys := by
  induction xs generalizing start
  case nil => rfl
  case cons x xs hi =>
    rw [List.cons_append, graftBlock, graftBlock, hi, sizes_cons, List.append_assoc, Nat.add_assoc]

theorem graftRoots_append : graftRoots start (xs ++ ys) =
    graftRoots start xs ++ graftRoots (start + sizes xs) ys := by
  induction xs generalizing start
  case nil => rfl
  case cons x xs hi =>
    rw [List.cons_append, graftRoots, graftRoots, hi, sizes_cons, List.cons_append, Nat.add_assoc]

-- Each place in the blocks is one of a certain model.
theorem exists_split_of_lt_sizes (h : i < sizes es) :
    ∃ before e after k, es = before ++ e :: after ∧ i = sizes before + k ∧ k < e.2.size := by
  induction es generalizing i
  case nil => exact absurd h (Nat.not_lt_zero i)
  case cons e es hi =>
    rw [sizes_cons] at h
    by_cases hlt : i < e.2.size
    case pos => exact ⟨[], e, es, i, rfl, (Nat.zero_add i).symm, hlt⟩
    case neg =>
      have ⟨before, x, after, k, hes, hk, hx⟩ := hi (i := i - e.2.size) (by omega)
      exact ⟨e :: before, x, after, k, by rw [hes]; rfl, by rw [sizes_cons]; omega, hx⟩

theorem getElem?_graftRoots : (graftRoots start (xs ++ e :: ys))[xs.length]? =
    some (start + sizes xs) := by
  rw [graftRoots_append, List.getElem?_append_right (Nat.le_of_eq length_graftRoots),
    length_graftRoots, Nat.sub_self]
  rfl

theorem getElem?_graftBlock (hi : i < e.2.size) : (graftBlock start (xs ++ e :: ys))[sizes xs + i]? =
    (e.2.shifted (start + sizes xs) e.1)[i]? := by
  have hlen : (graftBlock start xs).length = sizes xs := length_graftBlock
  rw [graftBlock_append, List.getElem?_append_right (hlen ▸ Nat.le_add_right ..), hlen,
    Nat.add_sub_cancel_left, graftBlock, List.getElem?_append_left (by rwa [length_shifted])]

theorem getElem?_shifted :
    (g.shifted start name)[i]? =
      (g.get? i).map (·.shift start (if i = rootIndex then some rootIndex else none) name) := by
  simp only [shifted, get?, List.getElem?_map, List.getElem?_zipIdx, Option.map_map]
  congr 1
  funext d
  simp

-- A description of `g` extends what it extended, wherever it is grafted.
theorem extends_iff_of_shift {owner : Option Nat} {k j : Nat}
    (h : m.get? (start + k) = (g.get? k).map (·.shift start owner name)) :
    m.Extends (start + k) j ↔ ∃ c, j = start + c ∧ g.Extends k c := by
  constructor
  case mp =>
    intro ⟨d, hd, hp⟩
    obtain ⟨e, he, rfl⟩ := Option.map_eq_some_iff.mp (h.symm.trans hd)
    obtain ⟨link, hlink, hj⟩ := Option.map_eq_some_iff.mp hp
    cases link
    case builtIn => cases hj
    case declared c =>
      cases hj
      exact ⟨c, Nat.add_comm .., e, he, hlink⟩
  case mpr =>
    rintro ⟨c, rfl, e, he, hp⟩
    refine ⟨e.shift start owner name, by rw [h, he]; rfl, ?_⟩
    simp [Description.shift, hp, Nat.add_comm]

theorem exists_of_mem_shifted {d : Description} (h : d ∈ g.shifted start name) :
    ∃ i e, g.get? i = some e ∧
      e.shift start (if i = rootIndex then some rootIndex else none) name = d := by
  obtain ⟨i, hi⟩ := List.mem_iff_getElem?.mp h
  rw [getElem?_shifted] at hi
  exact ⟨i, Option.map_eq_some_iff.mp hi⟩

theorem graftBlock_singleton : graftBlock start [(name, g)] = g.shifted start name :=
  List.append_nil _

theorem isOwn_of_mem_graftBlock {d : Description} (h : d ∈ graftBlock start es) :
    d.isOwn = false := by
  induction es generalizing start
  case nil => simp [graftBlock] at h
  case cons e es hi =>
    rw [graftBlock, List.mem_append] at h
    cases h
    case inl h =>
      have ⟨x, _, hx⟩ := List.mem_map.mp h
      subst hx
      rfl
    case inr h => exact hi h

end Model
end ModelAssembly
