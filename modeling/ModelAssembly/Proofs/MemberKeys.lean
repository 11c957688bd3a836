import ModelAssembly.Proofs.OwnerTree
/-!
Keys of members. However a description came about, each of its members goes by its own role and
name: changes to members add each under its own key, and models leave the members alone.

Main statements: `Description.Made.keyed` and `Model.Built.keyed`.
-/

namespace ModelAssembly

namespace Description

variable {d d' : Description}

theorem keyed_of_edit {change : Description → Description} (h : d.edit change = .ok d')
    (hc : (change d).Keyed) : d'.Keyed :=
  (edit_eq_ok_iff.mp h).2 ▸ hc

theorem Operation.keyed (h : d.Operation d') (hd : d.Keyed) : d'.Keyed := by
  cases h
  case setParent h => exact keyed_of_edit h hd
  case setOrigin h => exact keyed_of_edit h hd
  case setProvenance h => exact keyed_of_edit h hd
  case setFacet h => exact keyed_of_edit h hd
  case removeFacet h => exact keyed_of_edit h hd
  case addMember m h =>
    have hm : (d.members.insertAll [(m.key, m)]).KeyedBy Member.key := hd.insertAll (by simp)
    exact keyed_of_edit h hm
  case inheritMembers h => exact keyed_of_edit h ((d.keyed_inheritable _ _).merge hd)
  case close => exact hd

theorem Made.keyed (h : d.Made) : d.Keyed := by
  induction h
  case new => exact OrderedMap.keyedBy_empty
  case shell hs =>
    have ⟨_, hd⟩ := exists_new_of_shell? hs
    exact hd ▸ OrderedMap.keyedBy_empty
  case builtIn => exact OrderedMap.keyedBy_empty
  case operation ho hi => exact ho.keyed hi

end Description

namespace Model

open Description

variable {m n g : Model} {i owner : Nat} {roots : List Nat} {d : Description}
  {ds : List Description}

def AllKeyed (m : Model) : Prop := ∀ i d, m.get? i = some d → d.Keyed

theorem AllKeyed.grow (h : m.AllKeyed) (hds : ∀ d ∈ ds, d.Keyed) :
    (m.grow owner roots ds).AllKeyed := by
  intro i d hd
  cases Nat.lt_or_ge i m.size
  case inl hi =>
    rw [get?_grow_of_lt _ _ _ _ hi] at hd
    obtain ⟨e, he, rfl⟩ := Option.map_eq_some_iff.mp hd
    split
    case isTrue => exact h i e he
    case isFalse => exact h i e he
  case inr hi =>
    rw [get?_grow_right _ _ hi] at hd
    exact hds d (List.mem_of_getElem? hd)

theorem AllKeyed.operation (h : m.AllKeyed) (ho : m.Operation n) : n.AllKeyed := by
  cases ho
  case add d hd ha =>
    rw [add_eq_ok ha]
    refine h.grow fun e he => ?_
    cases List.mem_singleton.mp he
    exact hd.keyed
  case change i d d' hd hop =>
    intro j e he
    rw [get?_set hd] at he
    split at he
    case isTrue =>
      cases he
      exact hop.keyed (h i d hd)
    case isFalse => exact h j e he
  case buildTypes hb =>
    obtain ⟨types, hn⟩ := buildTypes_eq_ok hb
    exact hn ▸ h
  case describe => exact h

theorem AllKeyed.graft {name : String} (hm : m.AllKeyed) (hg : g.AllKeyed)
    (h : m.graft name g = .ok n) : n.AllKeyed := by
  obtain ⟨_, _, hn⟩ := graft_eq_ok_iff.mp h
  have hgrow : (m.grow rootIndex [m.size] (graftBlock m.size [(name, g)])).AllKeyed := by
    refine hm.grow fun d hd => ?_
    rw [graftBlock_singleton] at hd
    obtain ⟨k, e, he, rfl⟩ := exists_of_mem_shifted hd
    exact hg k e he
  exact hn ▸ hgrow

theorem Built.keyed (h : m.Built) : m.AllKeyed := by
  induction h
  case ofRoot root registry m hr ho =>
    unfold Model.ofRoot at ho
    split at ho
    case isFalse => cases ho
    case isTrue =>
      cases ho
      intro i d hd
      have hd : d = root := List.mem_singleton.mp (List.mem_of_getElem? hd)
      exact hd ▸ hr.keyed
  case operation ho hi => exact hi.operation ho
  case graft hg hm hi => exact hm.graft hi hg

end Model
end ModelAssembly
