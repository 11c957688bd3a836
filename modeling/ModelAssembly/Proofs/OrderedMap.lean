import ModelAssembly.OrderedMap
import Mathlib.Data.List.Induction
import Mathlib.Data.List.Nodup
/-!
Laws of ordered maps: what a map holds after many entries were set in it. The last value of a key
counts, in the place where the key first arrived.

Main statements: `get?_insertAll`, `keys_insertAll` and `erase_insertAll`; `merge_assoc` for maps that
are set in others. `KeyedBy` is what tables of members keep to.
-/

namespace ModelAssembly

namespace OrderedMap

variable {κ α : Type} [DecidableEq κ] {m n : OrderedMap κ α} {es : List (κ × α)} {k : κ} {v : α}

-- Sets the entries of a list, in order.
def insertAll (m : OrderedMap κ α) (es : List (κ × α)) : OrderedMap κ α :=
  es.foldl (fun m e => m.insert e.1 e.2) m

theorem ofList_eq_insertAll : ofList es = (∅ : OrderedMap κ α).insertAll es := rfl

theorem merge_eq_insertAll : m.merge n = m.insertAll n.entries := rfl

@[simp]
theorem insertAll_nil : m.insertAll [] = m := rfl

theorem insertAll_append (es fs : List (κ × α)) :
    m.insertAll (es ++ fs) = (m.insertAll es).insertAll fs :=
  List.foldl_append

theorem insertAll_concat (e : κ × α) :
    m.insertAll (es ++ [e]) = (m.insertAll es).insert e.1 e.2 := by
  simp [insertAll]

theorem fetch_eq_lookup (k : κ) (es : List (κ × α)) : fetch k es = es.lookup k := by
  induction es
  case nil => rfl
  case cons e r hi =>
    have ⟨j, v⟩ := e
    by_cases h : j = k
    case pos => simp [fetch, h]
    case neg =>
      have h' : (k == j) = false := by simpa using fun he => h he.symm
      simp [fetch, List.lookup_cons, h, h', hi]

theorem fetch_eq_some_iff (hn : (es.map Prod.fst).Nodup) :
    fetch k es = some v ↔ (k, v) ∈ es := by
  induction es
  case nil => simp [fetch]
  case cons e r hi =>
    rw [List.map_cons, List.nodup_cons] at hn
    by_cases h : e.1 = k
    case pos =>
      have hk : (k, v) ∉ r := fun hm => hn.1 (h ▸ List.mem_map_of_mem hm)
      simp [fetch, h, hk, Prod.ext_iff, eq_comm]
    case neg =>
      have hk : (k, v) ≠ e := fun he => h (he ▸ rfl)
      simp [fetch, h, hk, hi hn.2]

theorem get?_eq_some_iff : m.get? k = some v ↔ (k, v) ∈ m.entries :=
  fetch_eq_some_iff m.nodup

-- The entries are the keys, each with its value.
theorem entries_eq_filterMap (m : OrderedMap κ α) :
    m.entries = m.keys.filterMap fun k => (m.get? k).map (k, ·) := by
  have h (e : κ × α) (he : e ∈ m.entries) : m.get? e.1 = some e.2 := get?_eq_some_iff.mpr he
  rw [keys, List.filterMap_map]
  conv_lhs => rw [← List.filterMap_some (l := m.entries)]
  apply List.filterMap_congr
  intro e he
  simp [h e he]

theorem values_eq_filterMap (m : OrderedMap κ α) : m.values = m.keys.filterMap m.get? := by
  rw [values, entries_eq_filterMap, List.map_filterMap]
  simp [Option.map_map, Function.comp_def]

theorem ext_get? (hk : m.keys = n.keys) (hg : ∀ k, m.get? k = n.get? k) : m = n := by
  apply OrderedMap.ext
  rw [entries_eq_filterMap, entries_eq_filterMap, hk]
  simp only [hg]

theorem mem_values_iff : v ∈ m.values ↔ ∃ k, m.get? k = some v := by
  simp [values, get?_eq_some_iff]

theorem eraseDups_concat (as : List κ) (a : κ) :
    (as ++ [a]).eraseDups = if a ∈ as then as.eraseDups else as.eraseDups ++ [a] := by
  rw [List.eraseDups_append]
  by_cases h : a ∈ as <;> simp [List.removeAll, h, List.eraseDups_cons]

theorem eraseDups_of_nodup {as : List κ} (h : as.Nodup) : as.eraseDups = as := by
  induction as using List.reverseRecOn
  case nil => rfl
  case append_singleton as a hi =>
    have ⟨ha, _, hd⟩ := List.nodup_append.mp h
    have hm : a ∉ as := fun hm => hd a hm a (List.mem_singleton_self a) rfl
    simp [eraseDups_concat, hm, hi ha]

theorem get?_insertAll (m : OrderedMap κ α) (es : List (κ × α)) (k : κ) :
    (m.insertAll es).get? k = (es.reverse.lookup k).or (m.get? k) := by
  induction es using List.reverseRecOn
  case nil => simp
  case append_singleton es e hi =>
    have ⟨j, v⟩ := e
    by_cases h : j = k
    case pos => simp [insertAll_concat, get?_insert, h]
    case neg =>
      have h' : (k == j) = false := by simpa using fun he => h he.symm
      simp [insertAll_concat, get?_insert, List.lookup_cons, h, h', hi]

theorem keys_insertAll (m : OrderedMap κ α) (es : List (κ × α)) :
    (m.insertAll es).keys = (m.keys ++ es.map Prod.fst).eraseDups := by
  induction es using List.reverseRecOn
  case nil => simp [eraseDups_of_nodup m.nodup_keys]
  case append_singleton es e hi =>
    rw [insertAll_concat, keys_insert, hi, List.map_append, ← List.append_assoc, List.map_singleton,
      eraseDups_concat]
    simp only [List.mem_eraseDups]

theorem get?_merge (m n : OrderedMap κ α) (k : κ) :
    (m.merge n).get? k = (n.get? k).or (m.get? k) := by
  have hr : n.entries.reverse.lookup k = n.get? k := by
    have hn : (n.entries.reverse.map Prod.fst).Nodup := by
      rw [List.map_reverse]
      exact List.nodup_reverse.mpr n.nodup
    ext v
    rw [← fetch_eq_lookup, fetch_eq_some_iff hn, List.mem_reverse, get?_eq_some_iff]
  rw [merge_eq_insertAll, get?_insertAll, hr]

theorem get?_ofList (es : List (κ × α)) (k : κ) : (ofList es).get? k = es.reverse.lookup k := by
  simp [ofList_eq_insertAll, get?_insertAll]

theorem keys_ofList (es : List (κ × α)) : (ofList es).keys = (es.map Prod.fst).eraseDups := by
  simp [ofList_eq_insertAll, keys_insertAll]

theorem nodup_eraseDups (ks : List κ) : ks.eraseDups.Nodup := by
  have h := (ofList (ks.map fun k => (k, ()))).nodup_keys
  rwa [keys_ofList, List.map_map, Function.comp_def, List.map_id'] at h

theorem eraseDups_filter (q : κ → Bool) (ks : List κ) :
    (ks.filter q).eraseDups = ks.eraseDups.filter q := by
  induction ks using List.reverseRecOn
  case nil => rfl
  case append_singleton ks k hi =>
    rw [List.filter_append, eraseDups_concat]
    cases hq : q k
    case false =>
      rw [List.filter_cons_of_neg (by simp [hq]), List.filter_nil, List.append_nil, hi]
      split
      case isTrue => rfl
      case isFalse => simp [hq]
    case true =>
      rw [List.filter_cons_of_pos hq, List.filter_nil, eraseDups_concat, hi]
      by_cases hk : k ∈ ks <;> simp [hk, hq]

-- It makes no difference whether keys that come several times are removed in parts.
theorem eraseDups_append_eraseDups (as bs : List κ) :
    (as ++ bs.eraseDups).eraseDups = (as ++ bs).eraseDups := by
  simp only [List.eraseDups_append, List.removeAll, eraseDups_filter,
    eraseDups_of_nodup (nodup_eraseDups _)]

theorem eraseDups_eraseDups_append (as bs : List κ) :
    (as.eraseDups ++ bs).eraseDups = (as ++ bs).eraseDups := by
  simp only [List.eraseDups_append, List.removeAll, eraseDups_of_nodup (nodup_eraseDups _),
    List.elem_eq_mem, List.mem_eraseDups]

-- To merge a map that more was set in is to merge the map and to set the rest then.
theorem merge_insertAll (m n : OrderedMap κ α) (es : List (κ × α)) :
    m.merge (n.insertAll es) = (m.merge n).insertAll es := by
  refine ext_get? ?keys fun k => ?value
  case keys =>
    simp only [merge_eq_insertAll, keys_insertAll, ← keys.eq_1, eraseDups_append_eraseDups,
      eraseDups_eraseDups_append, List.append_assoc]
  case value => rw [get?_merge, get?_insertAll, get?_insertAll, get?_merge, Option.or_assoc]

theorem merge_assoc (m n o : OrderedMap κ α) : (m.merge n).merge o = m.merge (n.merge o) :=
  (merge_insertAll m n o.entries).symm

theorem keys_merge (m n : OrderedMap κ α) :
    (m.merge n).keys = m.keys ++ n.keys.filter (· ∉ m.keys) := by
  have hn : (n.keys.filter (!m.keys.elem ·)).Nodup := n.nodup_keys.filter _
  rw [merge_eq_insertAll, keys_insertAll, ← keys.eq_1, List.eraseDups_append,
    eraseDups_of_nodup m.nodup_keys, List.removeAll, eraseDups_of_nodup hn]
  simp

theorem merge_self (m : OrderedMap κ α) : m.merge m = m := by
  refine ext_get? ?keys fun k => ?value
  case keys => simp [keys_merge]
  case value => rw [get?_merge, Option.or_self]

theorem erase_insert_self (m : OrderedMap κ α) (k : κ) (v : α) :
    (m.insert k v).erase k = m.erase k := by
  refine ext_get? ?keys fun i => ?value
  case keys =>
    rw [keys_erase, keys_erase, keys_insert]
    split
    case isTrue => rfl
    case isFalse => simp
  case value =>
    simp only [get?_erase, get?_insert]
    split <;> rfl

theorem erase_insert_of_ne {j : κ} (m : OrderedMap κ α) (v : α) (h : k ≠ j) :
    (m.insert k v).erase j = (m.erase j).insert k v := by
  refine ext_get? ?keys fun i => ?value
  case keys =>
    rw [keys_erase, keys_insert, keys_insert, keys_erase]
    by_cases hk : k ∈ m.keys <;> simp [hk, h]
  case value =>
    simp only [get?_erase, get?_insert]
    by_cases hi : k = i
    case pos => simp [hi, hi ▸ h.symm]
    case neg => simp [hi]

-- To remove a key from what a list was set in is to set the rest of the list in what is without it.
theorem erase_insertAll (m : OrderedMap κ α) (es : List (κ × α)) (k : κ) :
    (m.insertAll es).erase k = (m.erase k).insertAll (es.filter (·.1 ≠ k)) := by
  induction es using List.reverseRecOn
  case nil => rfl
  case append_singleton es e hi =>
    have ⟨j, v⟩ := e
    rw [insertAll_concat, List.filter_append]
    by_cases h : j = k
    case pos =>
      subst h
      have hnone : [(j, v)].filter (·.1 ≠ j) = [] := by simp
      rw [erase_insert_self, hi, hnone, List.append_nil]
    case neg =>
      have hone : [(j, v)].filter (·.1 ≠ k) = [(j, v)] := by simp [h]
      rw [erase_insert_of_ne _ _ h, hi, hone, insertAll_concat]

theorem mem_of_get?_ofList (h : (ofList es).get? k = some v) : (k, v) ∈ es := by
  rw [get?_ofList, List.lookup_eq_some_iff] at h
  have ⟨l₁, l₂, he, _⟩ := h
  exact List.mem_reverse.mp (he ▸ List.mem_append_right l₁ List.mem_cons_self)

theorem put_of_not_mem (h : k ∉ es.map Prod.fst) : put k v es = es ++ [(k, v)] := by
  induction es
  case nil => rfl
  case cons e r hi =>
    simp only [List.map_cons, List.mem_cons, not_or] at h
    have he : ¬ e.1 = k := fun he => h.1 he.symm
    simp [put, he, hi h.2]

-- New entries with keys of their own come behind those that are there.
theorem entries_insertAll (hn : (es.map Prod.fst).Nodup) (hd : ∀ e ∈ es, e.1 ∉ m.keys) :
    (m.insertAll es).entries = m.entries ++ es := by
  induction es generalizing m
  case nil => simp
  case cons e r hi =>
    rw [List.map_cons, List.nodup_cons] at hn
    have he := hd e List.mem_cons_self
    have hk : (m.insert e.1 e.2).keys = m.keys ++ [e.1] := by simp [keys_insert, he]
    have hd' (f) (hf : f ∈ r) : f.1 ∉ (m.insert e.1 e.2).keys := by
      have hn' : f.1 ≠ e.1 := fun h => hn.1 (h ▸ List.mem_map_of_mem hf)
      simp [hk, hd f (List.mem_cons_of_mem e hf), hn']
    have hp : (m.insert e.1 e.2).entries = m.entries ++ [e] := put_of_not_mem he
    have h := hi hn.2 hd'
    rw [hp, List.append_assoc] at h
    exact h

theorem entries_ofList (hn : (es.map Prod.fst).Nodup) : (ofList es).entries = es := by
  rw [ofList_eq_insertAll, entries_insertAll hn (by simp)]
  rfl

theorem empty_merge (m : OrderedMap κ α) : (∅ : OrderedMap κ α).merge m = m :=
  ext (entries_ofList m.nodup)

-- Each value goes by the key that `f` reads off it.
def KeyedBy (f : α → κ) (m : OrderedMap κ α) : Prop := ∀ k v, m.get? k = some v → f v = k

section

variable {f : α → κ}

theorem KeyedBy.map_values (h : m.KeyedBy f) : m.values.map f = m.keys := by
  rw [values, keys, List.map_map]
  exact List.map_congr_left fun e he => h e.1 e.2 (get?_eq_some_iff.mpr he)

theorem KeyedBy.get?_of_mem (h : m.KeyedBy f) (hv : v ∈ m.values) : m.get? (f v) = some v := by
  have ⟨k, hk⟩ := mem_values_iff.mp hv
  exact h k v hk ▸ hk

theorem KeyedBy.insertAll (h : m.KeyedBy f) (he : ∀ e ∈ es, f e.2 = e.1) :
    (m.insertAll es).KeyedBy f := by
  intro k v hk
  rw [get?_insertAll, Option.or_eq_some_iff] at hk
  cases hk
  case inl hl =>
    have ⟨l₁, l₂, hes, _⟩ := List.lookup_eq_some_iff.mp hl
    exact he (k, v) (List.mem_reverse.mp (hes ▸ List.mem_append_right l₁ List.mem_cons_self))
  case inr hm => exact h k v hm.2

theorem keyedBy_empty : (∅ : OrderedMap κ α).KeyedBy f := fun _ _ hk => by simp at hk

theorem keyedBy_ofList (he : ∀ e ∈ es, f e.2 = e.1) : (ofList es).KeyedBy f :=
  keyedBy_empty.insertAll he

theorem KeyedBy.merge (h : m.KeyedBy f) (hn : n.KeyedBy f) : (m.merge n).KeyedBy f :=
  h.insertAll fun e he => hn e.1 e.2 (get?_eq_some_iff.mpr he)

end

section

variable {β : Type} {i : Nat} {R : α → β → Prop}

theorem getElem?_entries_iff :
    m.entries[i]? = some (k, v) ↔ m.get? k = some v ∧ m.keys.idxOf k = i := by
  have hkeys (i : Nat) (e : κ × α) (he : m.entries[i]? = some e) : m.keys[i]? = some e.1 := by
    rw [keys, List.getElem?_map, he]
    rfl
  constructor
  case mp =>
    intro h
    obtain ⟨hi, rfl⟩ := List.getElem?_eq_some_iff.mp (hkeys i _ h)
    exact ⟨get?_eq_some_iff.mpr (List.mem_of_getElem? h), m.nodup_keys.idxOf_getElem i hi⟩
  case mpr =>
    rintro ⟨hv, hi⟩
    obtain ⟨j, hj⟩ := List.mem_iff_getElem?.mp (get?_eq_some_iff.mp hv)
    obtain ⟨hlt, hk⟩ := List.getElem?_eq_some_iff.mp (hkeys j _ hj)
    have hij : m.keys.idxOf m.keys[j] = j := m.nodup_keys.idxOf_getElem j hlt
    rw [hk] at hij
    rw [← hi, hij, hj]

-- Maps of lists that correspond to each other correspond to each other.
theorem forall₂_put {es : List (κ × α)} {fs : List (κ × β)} {w : β}
    (h : List.Forall₂ (fun e f => f.1 = e.1 ∧ R e.2 f.2) es fs) (hr : R v w) :
    List.Forall₂ (fun e f => f.1 = e.1 ∧ R e.2 f.2) (put k v es) (put k w fs) := by
  induction h
  case nil => exact .cons ⟨rfl, hr⟩ .nil
  case cons e f es fs he hes hi =>
    rw [put, put, he.1]
    split
    case isTrue => exact .cons ⟨rfl, hr⟩ hes
    case isFalse => exact .cons he hi

theorem forall₂_entries_ofList {es : List (κ × α)} {fs : List (κ × β)}
    (h : List.Forall₂ (fun e f => f.1 = e.1 ∧ R e.2 f.2) es fs) :
    List.Forall₂ (fun e f => f.1 = e.1 ∧ R e.2 f.2) (ofList es).entries (ofList fs).entries := by
  have hfold {m : OrderedMap κ α} {n : OrderedMap κ β}
      (hmn : List.Forall₂ (fun e f => f.1 = e.1 ∧ R e.2 f.2) m.entries n.entries) :
      List.Forall₂ (fun e f => f.1 = e.1 ∧ R e.2 f.2) (m.insertAll es).entries
        (n.insertAll fs).entries := by
    induction h generalizing m n
    case nil => exact hmn
    case cons e f es fs he _ hi =>
      have ⟨k, v⟩ := e
      have ⟨k', w⟩ := f
      cases he.1
      exact hi (forall₂_put hmn he.2)
  exact hfold .nil

end

end OrderedMap

namespace OrderedSet

variable {α : Type} [DecidableEq α] {s : OrderedSet α} {as : List α} {a b : α}

end OrderedSet

end ModelAssembly
