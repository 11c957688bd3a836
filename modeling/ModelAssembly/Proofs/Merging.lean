import ModelAssembly.Model.Basic
import ModelAssembly.Proofs.OrderedMap
/-!
Merging members down by one level: a description gets the members of its parent that it does not
have itself, in front of its own.

Main statement: `values_mergedWith`, for descriptions whose members go by their own keys.
-/

namespace ModelAssembly.Description

variable {d p : Description} {k : MemberKey}

-- The members of `d` go by their own roles and names.
def Keyed (d : Description) : Prop := d.members.KeyedBy Member.key

-- `d` after the members of `p` were merged into it.
def mergedWith (d : Description) (p : Option Description) : Description :=
  match p with
  | none => d
  | some p => { d with members := (d.inheritable p.name p.members.values).merge d.members }

theorem name_mergedWith (d : Description) (p : Option Description) :
    (d.mergedWith p).name = d.name := by
  cases p <;> rfl

theorem inheritMembers_eq_ok_iff {d' : Description} :
    d.inheritMembers p.name p.members.values = .ok d' ↔
      d.isFinalized = false ∧ d.mergedWith (some p) = d' :=
  edit_eq_ok_iff

theorem inheritMembers_of_open (h : d.isFinalized = false) (p : Description) :
    d.inheritMembers p.name p.members.values = .ok (d.mergedWith (some p)) :=
  inheritMembers_eq_ok_iff.mpr ⟨h, rfl⟩

theorem keyed_inheritable (d : Description) (name : String) (ms : List Member) :
    (d.inheritable name ms).KeyedBy Member.key := by
  apply OrderedMap.keyedBy_ofList
  intro e he
  have ⟨m, _, hm⟩ := List.mem_map.mp he
  exact hm ▸ rfl

theorem Keyed.mergedWith (h : d.Keyed) (p : Option Description) : (d.mergedWith p).Keyed := by
  cases p
  case none => exact h
  case some p => exact (d.keyed_inheritable p.name p.members.values).merge h

-- Only the members of the two matter, and the name of the parent.
theorem members_mergedWith_congr {d' : Description} {p p' : Option Description}
    (hd : d'.members = d.members)
    (hp : p'.map (fun x => (x.name, x.members)) = p.map fun x => (x.name, x.members)) :
    (d'.mergedWith p').members = (d.mergedWith p).members := by
  cases p <;> cases p' <;> simp_all [mergedWith, inheritable, hasMember]

theorem entries_inheritable (hp : p.Keyed) :
    (d.inheritable p.name p.members.values).entries =
      (p.members.values.filter fun m => !d.hasMember m.key).map fun m =>
        (m.key, m.inheritedVia p.name) := by
  apply OrderedMap.entries_ofList
  have hn : ((p.members.values.filter fun m => !d.hasMember m.key).map Member.key).Nodup := by
    apply List.Nodup.sublist (List.filter_sublist.map Member.key)
    rw [hp.map_values]
    exact p.members.nodup_keys
  rw [List.map_map]
  exact hn

-- What `d` has no member for comes from the parent, in the order of the parent.
theorem entries_mergedWith (hp : p.Keyed) :
    (d.mergedWith (some p)).members.entries =
      ((p.members.values.filter fun m => !d.hasMember m.key).map fun m =>
        (m.key, m.inheritedVia p.name)) ++ d.members.entries := by
  have hd (e) (he : e ∈ d.members.entries) :
      e.1 ∉ (d.inheritable p.name p.members.values).keys := by
    intro hm
    rw [OrderedMap.keys, entries_inheritable hp, List.map_map] at hm
    obtain ⟨x, hx, hk⟩ := List.mem_map.mp hm
    have hkey : x.key = e.1 := hk
    have hno := (List.mem_filter.mp hx).2
    have hin : d.members.contains e.1 = true :=
      (OrderedMap.mem_keys_iff _ _).mp (List.mem_map_of_mem he)
    simp [hasMember, hkey, hin] at hno
  exact (OrderedMap.entries_insertAll d.members.nodup hd).trans
    (congrArg (· ++ _) (entries_inheritable hp))

theorem values_mergedWith (hp : p.Keyed) :
    (d.mergedWith (some p)).members.values =
      ((p.members.values.filter fun m => !d.hasMember m.key).map (·.inheritedVia p.name)) ++
        d.members.values := by
  rw [OrderedMap.values, entries_mergedWith hp, List.map_append, List.map_map]
  rfl

theorem size_mergedWith (hp : p.Keyed) : (d.mergedWith (some p)).members.size =
    d.inheritedCount p.name p.members.values + d.members.size := by
  simp only [OrderedMap.size, inheritedCount, entries_mergedWith hp, entries_inheritable hp,
    List.length_append]

theorem get?_inheritable (hp : p.Keyed) :
    (d.inheritable p.name p.members.values).get? k =
      if d.hasMember k then none else (p.members.get? k).map (·.inheritedVia p.name) := by
  ext x
  have hmem : (d.inheritable p.name p.members.values).get? k = some x ↔
      ∃ y, p.members.get? k = some y ∧ d.hasMember k = false ∧ y.inheritedVia p.name = x := by
    rw [OrderedMap.get?_eq_some_iff, entries_inheritable hp, List.mem_map]
    constructor
    case mp =>
      intro ⟨y, hy, he⟩
      cases he
      have ⟨hy, hno⟩ := List.mem_filter.mp hy
      exact ⟨y, hp.get?_of_mem hy, by simpa using hno, rfl⟩
    case mpr =>
      intro ⟨y, hy, hno, he⟩
      have hk : y.key = k := hp k y hy
      refine ⟨y, List.mem_filter.mpr ⟨OrderedMap.mem_values_iff.mpr ⟨k, hy⟩, ?_⟩, ?_⟩
      · simp [hk, hno]
      · rw [hk, he]
  rw [hmem]
  cases d.hasMember k <;> simp

-- The member of the description itself goes before that of the parent.
theorem get?_mergedWith (hp : p.Keyed) :
    (d.mergedWith (some p)).members.get? k =
      (d.members.get? k).or ((p.members.get? k).map (·.inheritedVia p.name)) := by
  have hm : (d.mergedWith (some p)).members =
      (d.inheritable p.name p.members.values).merge d.members := rfl
  rw [hm, OrderedMap.get?_merge, get?_inheritable hp, hasMember, OrderedMap.contains]
  cases d.members.get? k <;> simp

theorem hasMember_mergedWith (hp : p.Keyed) (k : MemberKey) :
    (d.mergedWith (some p)).hasMember k = (d.hasMember k || p.hasMember k) := by
  simp [hasMember, OrderedMap.contains, get?_mergedWith hp]

end ModelAssembly.Description
