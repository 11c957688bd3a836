import ModelAssembly.Proofs.Arena
import ModelAssembly.Proofs.OrderedMap
import Mathlib.Data.Option.Basic
import Mathlib.Order.Bounds.Basic
/-!
Names in a model. Several descriptions may go by one name, and each look-up settles on one of them
by a rule of its own: a search finds the first, and the table of types keeps the last. Either way
descriptions of the model itself go before grafted ones.

Main statements: `find?_eq_some_iff` for searches; `get?_types_of_built` and, for the names of
grafts, `get?_typeTable_of_graft` for types.
-/

namespace ModelAssembly

section

variable {α β : Type} [Preorder β] {f : α → β} {l : List α} {q : α → Bool} {a : α}

-- In a list in the order of `f`, a search finds what is least by `f`.
theorem find?_eq_some_iff_of_pairwise (hl : l.Pairwise (f · < f ·)) :
    l.find? q = some a ↔ a ∈ l ∧ q a = true ∧ ∀ b ∈ l, q b = true → f a ≤ f b := by
  induction l
  case nil => simp
  case cons c l hi =>
    have ⟨hc, hl⟩ := List.pairwise_cons.mp hl
    cases hq : q c
    case false =>
      have hne (h : q a = true) : a ≠ c := fun he => by simp [← he, h] at hq
      rw [List.find?_cons_of_neg (by simp [hq]), hi hl, List.forall_mem_cons]
      simp only [hq, Bool.false_eq_true, false_implies, true_and, List.mem_cons]
      exact ⟨fun ⟨hm, ha, h⟩ => ⟨.inr hm, ha, h⟩,
        fun ⟨hm, ha, h⟩ => ⟨hm.resolve_left (hne ha), ha, h⟩⟩
    case true =>
      rw [List.find?_cons_of_pos hq]
      constructor
      case mp =>
        intro he
        cases he
        exact ⟨List.mem_cons_self, hq,
          List.forall_mem_cons.mpr ⟨fun _ => le_rfl, fun b hb _ => (hc b hb).le⟩⟩
      case mpr =>
        intro ⟨hm, _, h⟩
        cases List.mem_cons.mp hm
        case inl he => rw [he]
        case inr hm => exact absurd (h c List.mem_cons_self hq) (hc a hm).not_ge

end

namespace Model

variable {m m' : Model} {t : TypeTable} {i : Nat} {d : Description} {name : String}
  {p : Description → Bool} {pre : List (Description × Nat)} {type : SpeciesType}

-- The descriptions of a name that are `p`, the root left out.
def bearers (m : Model) (name : String) (p : Description → Bool) : Set Nat :=
  {i | i ≠ rootIndex ∧ ∃ d, m.get? i = some d ∧ d.name = name ∧ p d = true}

theorem mem_nonRoot : (d, i) ∈ m.nonRoot ↔ i ≠ rootIndex ∧ m.get? i = some d := by
  rw [nonRoot, List.drop_one, List.mem_iff_getElem?]
  constructor
  case mp =>
    rintro ⟨n, hn⟩
    rw [List.getElem?_tail, List.getElem?_zipIdx] at hn
    obtain ⟨e, he, hx⟩ := Option.map_eq_some_iff.mp hn
    cases hx
    refine ⟨by simp [rootIndex], ?_⟩
    simpa [get?] using he
  case mpr =>
    rintro ⟨h0, hd⟩
    have hi : i - 1 + 1 = i := Nat.sub_add_cancel (Nat.pos_of_ne_zero h0)
    refine ⟨i - 1, ?_⟩
    rw [List.getElem?_tail, hi, List.getElem?_zipIdx]
    simp_all [get?]

theorem pairwise_nonRoot (m : Model) : m.nonRoot.Pairwise (·.2 < ·.2) := by
  have hs : (m.descriptions.zipIdx.map Prod.snd).Pairwise (· < ·) := by
    rw [List.zipIdx_map_snd]
    exact List.pairwise_lt_range'
  exact (List.pairwise_map.mp hs).sublist (List.drop_sublist ..)

theorem mem_bearers : i ∈ m.bearers name p ↔
    ∃ d, (d, i) ∈ m.nonRoot ∧ (d.name == name && p d) = true := by
  simp only [mem_nonRoot, Bool.and_eq_true, beq_iff_eq]
  exact ⟨fun ⟨h0, d, hd, h⟩ => ⟨d, ⟨h0, hd⟩, h⟩, fun ⟨d, ⟨h0, hd⟩, h⟩ => ⟨h0, d, hd, h⟩⟩

-- Searching for a name in the order of `f` finds its bearer that is least by `f`.
theorem find?_bearers_iff {β : Type} [Preorder β] {f : Nat → β} {l : List (Description × Nat)}
    (hl : l.Pairwise (f ·.2 < f ·.2)) (hm : ∀ x, x ∈ l ↔ x ∈ m.nonRoot) :
    (∃ d, l.find? (fun x => x.1.name == name && p x.1) = some (d, i)) ↔
      i ∈ m.bearers name p ∧ ∀ j ∈ m.bearers name p, f i ≤ f j := by
  simp only [find?_eq_some_iff_of_pairwise hl, hm, ← and_assoc]
  rw [exists_and_right, ← mem_bearers]
  refine and_congr_right fun _ => ⟨fun h j hj => ?_, fun h x hx hn => ?_⟩
  · have ⟨e, he, hn⟩ := mem_bearers.mp hj
    exact h (e, j) he hn
  · exact h x.2 (mem_bearers.mpr ⟨x.1, hx, hn⟩)

theorem isLeast_bearers_iff : IsLeast (m.bearers name p) i ↔
    ∃ d, m.nonRoot.find? (fun x => x.1.name == name && p x.1) = some (d, i) :=
  (find?_bearers_iff (f := id) m.pairwise_nonRoot fun _ => .rfl).symm

theorem isGreatest_bearers_iff : IsGreatest (m.bearers name p) i ↔
    ∃ d, m.nonRoot.reverse.find? (fun x => x.1.name == name && p x.1) = some (d, i) :=
  (find?_bearers_iff (f := OrderDual.toDual) (List.pairwise_reverse.mpr m.pairwise_nonRoot)
    fun _ => List.mem_reverse).symm

theorem bearers_eq_empty_iff : m.bearers name p = ∅ ↔
    m.nonRoot.find? (fun x => x.1.name == name && p x.1) = none := by
  simp only [Set.eq_empty_iff_forall_notMem, mem_bearers, List.find?_eq_none, not_exists, not_and]
  exact ⟨fun h x hx => h x.2 x.1 hx, fun h i d hd => h (d, i) hd⟩

theorem exists_isLeast_bearers (h : i ∈ m.bearers name p) : ∃ j, IsLeast (m.bearers name p) j := by
  simp only [isLeast_bearers_iff]
  cases hf : m.nonRoot.find? fun x => x.1.name == name && p x.1
  case none => exact absurd (bearers_eq_empty_iff.mpr hf ▸ h) (Set.notMem_empty i)
  case some x => exact ⟨x.2, x.1, rfl⟩

theorem exists_isGreatest_bearers (h : i ∈ m.bearers name p) :
    ∃ j, IsGreatest (m.bearers name p) j := by
  have ⟨d, hd, hn⟩ := mem_bearers.mp h
  simp only [isGreatest_bearers_iff]
  cases hf : m.nonRoot.reverse.find? fun x => x.1.name == name && p x.1
  case none => exact absurd hn (List.find?_eq_none.mp hf (d, i) (List.mem_reverse.mpr hd))
  case some x => exact ⟨x.2, x.1, rfl⟩

theorem find?_eq_some_iff : m.find? name = some i ↔
    IsLeast (m.bearers name fun d => !d.isModel && d.isOwn) i ∨
      m.bearers name (fun d => !d.isModel && d.isOwn) = ∅ ∧
        IsLeast (m.bearers name fun d => !d.isModel) i := by
  simp only [isLeast_bearers_iff, bearers_eq_empty_iff, find?, List.find?_filter, List.head?_filter,
    Bool.decide_and, Bool.decide_eq_true, Bool.and_assoc, Option.map_eq_some_iff,
    Option.or_eq_some_iff, Prod.exists, exists_eq_right, exists_or, exists_and_left]

-- A search fails only where no species or experiment has the name.
theorem find?_eq_none_iff :
    m.find? name = none ↔ m.bearers name (fun d => !d.isModel) = ∅ := by
  simp only [bearers_eq_empty_iff, find?, List.find?_filter, List.head?_filter,
    Option.map_eq_none_iff, Option.or_eq_none_iff]
  refine and_iff_right_of_imp fun h => List.find?_eq_none.mpr fun x hx hown => ?_
  exact List.find?_eq_none.mp h x hx (by simp_all)

-- Of the descriptions `ds`, the one that the table of types keeps for a name: the last, but no
-- grafted one takes the place of one of the model itself.
def prevailing? (ds : List (Description × Nat)) (name : String) : Option (Description × Nat) :=
  (ds.reverse.find? fun x => x.1.name == name && x.1.isOwn).or
    (ds.reverse.find? fun x => x.1.name == name)

theorem mem_of_prevailing? {x : Description × Nat} (h : prevailing? pre name = some x) :
    x ∈ pre ∧ x.1.name = name := by
  cases Option.or_eq_some_iff.mp h
  case inl h =>
    have hn := List.find?_some h
    simp only [Bool.and_eq_true, beq_iff_eq] at hn
    exact ⟨List.mem_reverse.mp (List.mem_of_find?_eq_some h), hn.1⟩
  case inr h =>
    exact ⟨List.mem_reverse.mp (List.mem_of_find?_eq_some h.2), by simpa using List.find?_some h.2⟩

theorem prevailing?_concat (x : Description × Nat) : prevailing? (pre ++ [x]) name =
    if x.1.name = name ∧ (!x.1.isOwn && (prevailing? pre name).any (·.1.isOwn)) = false then some x
    else prevailing? pre name := by
  have hr : (pre ++ [x]).reverse = x :: pre.reverse := List.reverse_concat ..
  by_cases hn : x.1.name = name
  case neg =>
    rw [if_neg fun h => hn h.1, prevailing?, hr, List.find?_cons_of_neg (by simp [hn]),
      List.find?_cons_of_neg (by simp [hn])]
    rfl
  case pos =>
    cases ho : x.1.isOwn
    case true =>
      rw [if_pos ⟨hn, by simp⟩, prevailing?, hr, List.find?_cons_of_pos (by simp [hn, ho])]
      rfl
    case false =>
      have hx : prevailing? (pre ++ [x]) name =
          (pre.reverse.find? fun y => y.1.name == name && y.1.isOwn).or (some x) := by
        rw [prevailing?, hr, List.find?_cons_of_neg (by simp [ho]),
          List.find?_cons_of_pos (by simp [hn])]
      rw [hx]
      cases hf : pre.reverse.find? fun y => y.1.name == name && y.1.isOwn
      case some y =>
        have hp : prevailing? pre name = some y := by rw [prevailing?, hf, Option.some_or]
        have hy := List.find?_some hf
        simp only [Bool.and_eq_true] at hy
        simp [hp, hy.2]
      case none =>
        -- Whatever else goes by the name is grafted, too.
        have hno : (prevailing? pre name).any (·.1.isOwn) = false := by
          rw [prevailing?, hf, Option.none_or, Option.any_eq_false]
          intro y hy
          have h := List.find?_eq_none.mp hf y (List.mem_of_find?_eq_some hy)
          have hname := List.find?_some hy
          simp_all
        simp [hn, hno]

-- The type that a description gives rise to.
structure TypeOf (m : Model) (x : Description × Nat) (type : SpeciesType) : Prop where
  name : type.name = x.1.name
  description : type.description = x.2
  parent : m.parentTypeName x.1 = .ok type.parent

theorem TypeOf.unique {x : Description × Nat} {type' : SpeciesType} (h : m.TypeOf x type)
    (h' : m.TypeOf x type') : type = type' := by
  have hn := h.name.trans h'.name.symm
  have hd := h.description.trans h'.description.symm
  have hp := Except.ok.inj (h.parent.symm.trans h'.parent)
  cases type
  cases type'
  simp_all

-- The table holds the types of what prevails among `ds`.
def Lists (m : Model) (ds : List (Description × Nat)) (t : TypeTable) : Prop :=
  t.aliases = ∅ ∧ ∀ name, Option.Rel m.TypeOf (prevailing? ds name) (t.types.get? name)

theorem Lists.shadows (h : m.Lists pre t) (hpre : ∀ x ∈ pre, x ∈ m.nonRoot) (d : Description) :
    m.shadows t d = (!d.isOwn && (prevailing? pre d.name).any (·.1.isOwn)) := by
  rw [Model.shadows]
  congr 1
  have hr := h.2 d.name
  cases hp : prevailing? pre d.name
  case none =>
    rw [hp] at hr
    generalize t.types.get? d.name = type? at hr
    cases hr
    rfl
  case some x =>
    rw [hp] at hr
    generalize t.types.get? d.name = type? at hr
    cases hr
    case some type ht =>
      have hx := (mem_nonRoot.mp (hpre x (mem_of_prevailing? hp).1)).2
      simp [ht.description, hx]

theorem lists_of_declared (h : m.declaredTypes = .ok t) : m.Lists m.nonRoot t := by
  refine foldlM_eq_ok_rule (P := fun pre t => m.Lists pre t) h ?start ?step
  case start => exact ⟨rfl, fun _ => .none⟩
  case step =>
    intro pre x post t t' he hl hx
    have hpre (y) (hy : y ∈ pre) : y ∈ m.nonRoot := he ▸ List.mem_append_left _ hy
    have hs := hl.shadows hpre x.1
    cases hsh : m.shadows t x.1
    case true =>
      simp only [hsh, if_true] at hx
      cases hx
      refine ⟨hl.1, fun name => ?_⟩
      rw [prevailing?_concat, if_neg]
      · exact hl.2 name
      · intro ⟨hn, hno⟩
        rw [← hn, ← hs, hsh] at hno
        cases hno
    case false =>
      simp only [hsh, Bool.false_eq_true, if_false] at hx
      have ⟨parent, hparent, hx⟩ := bind_eq_ok_iff.mp hx
      cases hx
      refine ⟨hl.1, fun name => ?_⟩
      rw [prevailing?_concat, TypeTable.insert, OrderedMap.get?_insert]
      by_cases hn : x.1.name = name
      case pos =>
        rw [if_pos hn, if_pos ⟨hn, hn ▸ hs ▸ hsh⟩]
        exact .some ⟨rfl, rfl, hparent⟩
      case neg =>
        rw [if_neg hn, if_neg fun h => hn h.1]
        exact hl.2 name

-- What a name denotes in the table of types.
def Denotes (m : Model) (name : String) (i : Nat) : Prop :=
  IsGreatest (m.bearers name (·.isOwn)) i ∨
    m.bearers name (·.isOwn) = ∅ ∧ IsGreatest (m.bearers name fun _ => true) i

theorem denotes_iff : m.Denotes name i ↔ ∃ d, prevailing? m.nonRoot name = some (d, i) := by
  have hrev : m.bearers name (·.isOwn) = ∅ ↔
      m.nonRoot.reverse.find? (fun x => x.1.name == name && x.1.isOwn) = none := by
    simp only [bearers_eq_empty_iff, List.find?_eq_none, List.mem_reverse]
  simp only [Denotes, hrev, isGreatest_bearers_iff, Bool.and_true, prevailing?,
    Option.or_eq_some_iff, exists_or, exists_and_left]

theorem exists_denotes (h : i ∈ m.bearers name fun _ => true) : ∃ j, m.Denotes name j := by
  cases Set.eq_empty_or_nonempty (m.bearers name (·.isOwn))
  case inl he =>
    have ⟨j, hj⟩ := exists_isGreatest_bearers h
    exact ⟨j, .inr ⟨he, hj⟩⟩
  case inr hne =>
    have ⟨_, hk⟩ := hne
    have ⟨j, hj⟩ := exists_isGreatest_bearers hk
    exact ⟨j, .inl hj⟩

theorem Denotes.unique {j : Nat} (hi : m.Denotes name i) (hj : m.Denotes name j) : i = j := by
  have ⟨d, hd⟩ := denotes_iff.mp hi
  have ⟨e, he⟩ := denotes_iff.mp hj
  cases hd.symm.trans he
  rfl

theorem exists_type_of_declared (h : m.declaredTypes = .ok t) (hi : m.Denotes name i) :
    ∃ type, t.types.get? name = some type ∧ type.name = name ∧ type.description = i := by
  have ⟨d, hp⟩ := denotes_iff.mp hi
  have hr := (lists_of_declared h).2 name
  rw [hp] at hr
  generalize t.types.get? name = type? at hr ⊢
  cases hr
  case some type ht =>
    exact ⟨type, rfl, ht.name.trans (mem_of_prevailing? hp).2, ht.description⟩

theorem get?_types_of_declared (h : m.declaredTypes = .ok t) :
    t.types.get? name = some type ↔ type.name = name ∧ m.Denotes name type.description ∧
      ∃ d, m.get? type.description = some d ∧ m.parentTypeName d = .ok type.parent := by
  have hr : t.types.get? name = some type ↔
      ∃ x, prevailing? m.nonRoot name = some x ∧ m.TypeOf x type := by
    have hr := (lists_of_declared h).2 name
    generalize prevailing? m.nonRoot name = x?, t.types.get? name = type? at hr ⊢
    cases hr
    case none => simp
    case some hx => simpa using ⟨fun he => he ▸ hx, hx.unique⟩
  rw [hr, denotes_iff]
  constructor
  case mp =>
    intro ⟨x, hp, hx⟩
    have ⟨hm, hn⟩ := mem_of_prevailing? hp
    refine ⟨hx.name.trans hn, ⟨x.1, hx.description ▸ hp⟩, x.1, ?_, hx.parent⟩
    exact hx.description ▸ (mem_nonRoot.mp hm).2
  case mpr =>
    intro ⟨hname, ⟨d, hp⟩, d', hd', hparent⟩
    have ⟨hm, hn⟩ := mem_of_prevailing? hp
    cases (mem_nonRoot.mp hm).2.symm.trans hd'
    exact ⟨_, hp, hname.trans hn.symm, rfl, hparent⟩

section

variable (h : m.buildTypes = .ok m')

include h

theorem exists_declaredTypes : ∃ t, m.declaredTypes = .ok t ∧ m'.types.types = t.types ∧
    ∀ name target, m'.types.aliases.get? name = some target ↔
      ∃ i d, m.grafts.get? name = some i ∧ m.get? i = some d ∧ d.name = target := by
  obtain ⟨t, ht, h⟩ := bind_eq_ok_iff.mp h
  obtain ⟨types, htypes, h⟩ := bind_eq_ok_iff.mp h
  cases h
  have hgrafts (name : String) (i : Nat) :
      m.grafts.get? name = some i ↔ (name, i) ∈ m.grafts.entries := OrderedMap.get?_eq_some_iff
  refine ⟨t, ht, ?_⟩
  simp only [hgrafts]
  refine foldlM_eq_ok_rule (P := fun pre u => u.types = t.types ∧ ∀ name target,
    u.aliases.get? name = some target ↔
      ∃ i d, (name, i) ∈ pre ∧ m.get? i = some d ∧ d.name = target) htypes ?start ?step
  case start => exact ⟨rfl, by simp [(lists_of_declared ht).1]⟩
  case step =>
    rintro pre g post u u' he ⟨htypes, hal⟩ hu
    obtain ⟨d, hd, hu⟩ := bind_eq_ok_iff.mp hu
    have hd := get_eq_ok_iff.mp hd
    cases hu
    have hnew (i : Nat) : (g.1, i) ∉ pre := by
      have hn := m.grafts.nodup
      rw [he, List.map_append] at hn
      have hdisj := (List.nodup_append.mp hn).2.2
      exact fun hm => hdisj _ (List.mem_map_of_mem hm) g.1 List.mem_cons_self rfl
    refine ⟨htypes, fun name target => ?_⟩
    rw [TypeTable.addAlias, OrderedMap.get?_insert]
    simp only [List.mem_append, List.mem_singleton]
    by_cases hn : g.1 = name
    case pos =>
      subst hn
      have hsame (i : Nat) : (g.1, i) ∈ pre ∨ (g.1, i) = g ↔ i = g.2 := by simp [hnew, Prod.ext_iff]
      simp [hsame, hd]
    case neg =>
      have hno (i : Nat) : (name, i) ≠ g := fun hi => hn (hi ▸ rfl)
      simp only [hn, hno, or_false, if_false]
      exact hal name target

-- The types that a model offers are those of what the names of its descriptions denote.
theorem get?_types_of_built : m'.types.types.get? name = some type ↔
    type.name = name ∧ m.Denotes name type.description ∧
      ∃ d, m.get? type.description = some d ∧ m.parentTypeName d = .ok type.parent := by
  have ⟨t, ht, htypes, _⟩ := exists_declaredTypes h
  rw [htypes]
  exact get?_types_of_declared ht

theorem exists_type_of_built (hi : m.Denotes name i) :
    ∃ type, m'.types.types.get? name = some type ∧ type.name = name ∧
      type.description = i := by
  have ⟨t, ht, htypes, _⟩ := exists_declaredTypes h
  rw [htypes]
  exact exists_type_of_declared ht hi

-- A graft is looked up under the name of its model.
theorem get?_typeTable_of_graft (hg : m.grafts.get? name = some i) (hd : m.get? i = some d) :
    m'.types.get? name = m'.types.types.get? d.name := by
  have ⟨_, _, _, haliases⟩ := exists_declaredTypes h
  rw [TypeTable.get?, (haliases name d.name).mpr ⟨i, d, hg, hd, rfl⟩]
  rfl

theorem get?_typeTable_of_not_graft (hg : m.grafts.get? name = none) :
    m'.types.get? name = m'.types.types.get? name := by
  have ⟨_, _, _, haliases⟩ := exists_declaredTypes h
  have hno : m'.types.aliases.get? name = none := by
    apply Option.eq_none_iff_forall_ne_some.mpr
    intro target ht
    have ⟨_, _, hi, _⟩ := (haliases name target).mp ht
    cases hg.symm.trans hi
  rw [TypeTable.get?, hno]
  rfl

end

end Model
end ModelAssembly
