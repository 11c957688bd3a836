import ModelAssembly.Proofs.Lineage
import ModelAssembly.Proofs.MemberKeys
/-!
Merging in turn. A description can get the members of its parent after those of the farther
ancestors were merged down into the parent, or it can get those of one ancestor after the other. As
copies keep the names of those who declare them, and go in front of what is there, both come to the
same. To merge a parent once more makes no difference.

Main statements: `mergedWith_mergedWith` for a parent and its parent, and from it
`foldl_mergedWith` for any number of ancestors; `mergedWith_again`; `merging_in_turn`.
-/

namespace ModelAssembly

namespace Description

variable {c d g p : Description}

-- `p` with the members of its ancestors, which start at the nearest and are merged down from the
-- farthest.
def withAncestors (p : Description) : List Description → Description
  | [] => p
  | g :: ancestors => p.mergedWith (some (g.withAncestors ancestors))

theorem Keyed.withAncestors (h : p.Keyed) (ancestors : List Description) :
    (p.withAncestors ancestors).Keyed := by
  cases ancestors
  case nil => exact h
  case cons => exact h.mergedWith _

theorem mergedWith_mergedWith (hg : g.Keyed) (hp : p.Keyed) :
    (c.mergedWith (some p)).mergedWith (some g) = c.mergedWith (some (p.mergedWith (some g))) := by
  have hshadowed : ((g.members.values.filter fun m => !p.hasMember m.key).map
      (·.inheritedVia g.name)).filter (fun m => !c.hasMember m.key) =
        (g.members.values.filter fun m => !(c.hasMember m.key || p.hasMember m.key)).map
          (·.inheritedVia g.name) := by
    simp only [List.filter_map, List.filter_filter, Function.comp_def, Member.key_inheritedVia,
      Bool.not_or]
  have hentries : ((c.mergedWith (some p)).mergedWith (some g)).members.entries =
      (c.mergedWith (some (p.mergedWith (some g)))).members.entries := by
    rw [entries_mergedWith hg, entries_mergedWith hp, entries_mergedWith (hp.mergedWith _),
      values_mergedWith hg, List.filter_append, List.map_append, hshadowed, List.map_map,
      List.append_assoc]
    simp only [hasMember_mergedWith hp]
    rfl
  exact congrArg (fun members => { c with members }) (OrderedMap.ext hentries)

theorem foldl_mergedWith (ancestors : List Description) (hp : p.Keyed)
    (ha : ∀ a ∈ ancestors, a.Keyed) :
    (p :: ancestors).foldl (fun c a => c.mergedWith (some a)) c =
      c.mergedWith (some (p.withAncestors ancestors)) := by
  induction ancestors generalizing c p
  case nil => rfl
  case cons g ancestors hi =>
    have hg : g.Keyed := ha g List.mem_cons_self
    have hrest (a) (hm : a ∈ ancestors) : a.Keyed := ha a (List.mem_cons_of_mem g hm)
    rw [List.foldl_cons, hi hg hrest, mergedWith_mergedWith (hg.withAncestors ancestors) hp]
    rfl

-- Of members that are all there, none is copied.
theorem inheritable_of_hasMember {name : String} {ms : List Member}
    (h : ∀ m ∈ ms, d.hasMember m.key = true) : d.inheritable name ms = ∅ := by
  have hnone : (ms.filter fun m => !d.hasMember m.key) = [] := by
    simpa [List.filter_eq_nil_iff] using h
  rw [inheritable, hnone]
  rfl

-- Once merged, a parent has nothing more to give.
theorem inheritable_mergedWith (hp : p.Keyed) :
    (d.mergedWith (some p)).inheritable p.name p.members.values = ∅ := by
  refine inheritable_of_hasMember fun m hm => ?_
  rw [hasMember_mergedWith hp, hasMember, hasMember, OrderedMap.contains, OrderedMap.contains,
    hp.get?_of_mem hm]
  simp

theorem mergedWith_again (hp : p.Keyed) :
    (d.mergedWith (some p)).mergedWith (some p) = d.mergedWith (some p) := by
  have hmembers : ((d.mergedWith (some p)).mergedWith (some p)).members =
      (d.mergedWith (some p)).members := by
    rw [mergedWith, inheritable_mergedWith hp]
    exact OrderedMap.empty_merge _
  exact congrArg (fun members => { d with members }) hmembers

end Description

open Description

-- The members of the grandparent `g` come down to `c` by way of the parent `p` as they do directly,
-- after those of `p`. Either way `c` gets as many of them, and once it has those of a parent, that
-- parent has no more for it.
theorem merging_in_turn {g p c : Description} (hg : g.Keyed) (hp : p.Keyed)
    (hpo : p.isFinalized = false) (hco : c.isFinalized = false) : ∃ flat once all,
      p.inheritMembers g.name g.members.values = .ok flat ∧
      c.inheritMembers p.name flat.members.values = .ok all ∧
      c.inheritMembers p.name p.members.values = .ok once ∧
      once.inheritMembers g.name g.members.values = .ok all ∧
      c.inheritedCount p.name flat.members.values =
        c.inheritedCount p.name p.members.values +
          once.inheritedCount g.name g.members.values ∧
      once.inheritedCount p.name p.members.values = 0 ∧
      once.inheritMembers p.name p.members.values = .ok once := by
  let flat := p.mergedWith (some g)
  let once := c.mergedWith (some p)
  let all := c.mergedWith (some flat)
  have hturn : once.mergedWith (some g) = all :=
    foldl_mergedWith [g] hp fun a ha => List.mem_singleton.mp ha ▸ hg
  have honce : once.isFinalized = false := hco
  refine ⟨flat, once, all, inheritMembers_of_open hpo g, inheritMembers_of_open hco flat,
    inheritMembers_of_open hco p, ?direct, ?count, ?nothing, ?same⟩
  case direct => exact hturn ▸ inheritMembers_of_open honce g
  case count =>
    -- By how many members there are in the end.
    have hflat : all.members.size = c.inheritedCount p.name flat.members.values + c.members.size :=
      size_mergedWith (hp.mergedWith (some g))
    have hnear : once.members.size = c.inheritedCount p.name p.members.values + c.members.size :=
      size_mergedWith hp
    have hall : (once.mergedWith (some g)).members.size =
        once.inheritedCount g.name g.members.values + once.members.size := size_mergedWith hg
    rw [hturn] at hall
    omega
  case nothing =>
    rw [inheritedCount, inheritable_mergedWith hp]
    rfl
  case same => exact (inheritMembers_of_open honce p).trans (congrArg _ (mergedWith_again hp))

-- A species as somebody writes it who adds one variable after the other.
def creature (name : String) (vars : List String) : Except ModelError Description :=
  vars.foldlM (fun d x => d.addMember { role := .var, name := x })
    (.new .species .species name ∅)

theorem made_creature {name : String} {vars : List String} {d : Description}
    (h : creature name vars = .ok d) : d.Made ∧ d.isFinalized = false := by
  refine foldlM_eq_ok_rule (P := fun _ d => d.Made ∧ d.isFinalized = false) h
    ⟨.new .., rfl⟩ fun _ x _ d d' _ hd he => ?_
  have ⟨_, he'⟩ := edit_eq_ok_iff.mp he
  exact ⟨hd.1.operation (.addMember he), he' ▸ hd.2⟩

-- A cub gets its energy from the wolf, although animals have some as well, and its age from the
-- animals, whichever way the members come down.
theorem merging_in_turn_in_pack : ∃ animal wolf cub flat once all,
    creature "animal" ["energy", "age"] = .ok animal ∧
    creature "wolf" ["den", "energy"] = .ok wolf ∧
    creature "cub" ["den"] = .ok cub ∧
    wolf.inheritMembers animal.name animal.members.values = .ok flat ∧
    cub.inheritMembers wolf.name flat.members.values = .ok all ∧
    cub.inheritMembers wolf.name wolf.members.values = .ok once ∧
    once.inheritMembers animal.name animal.members.values = .ok all ∧
    cub.inheritedCount wolf.name flat.members.values =
      cub.inheritedCount wolf.name wolf.members.values +
        once.inheritedCount animal.name animal.members.values ∧
    once.inheritedCount wolf.name wolf.members.values = 0 ∧
    once.inheritMembers wolf.name wolf.members.values = .ok once ∧
    all.members.values.map (fun m => (m.name, m.inheritedFrom)) =
      [("age", some "animal"), ("energy", some "wolf"), ("den", none)] := by
  have hfacts : (do
      let animal ← creature "animal" ["energy", "age"]
      let wolf ← creature "wolf" ["den", "energy"]
      let cub ← creature "cub" ["den"]
      let flat ← wolf.inheritMembers animal.name animal.members.values
      let all ← cub.inheritMembers wolf.name flat.members.values
      return all.members.values.map fun m => (m.name, m.inheritedFrom)) =
        (.ok [("age", some "animal"), ("energy", some "wolf"), ("den", none)] :
          Except ModelError _) := by
    rfl
  have ⟨animal, hanimal, hfacts⟩ := bind_eq_ok_iff.mp hfacts
  have ⟨wolf, hwolf, hfacts⟩ := bind_eq_ok_iff.mp hfacts
  have ⟨cub, hcub, hfacts⟩ := bind_eq_ok_iff.mp hfacts
  have ⟨madeAnimal, _⟩ := made_creature hanimal
  have ⟨madeWolf, hopen⟩ := made_creature hwolf
  have ⟨flat, once, all, hflat, hall, honce, hdirect, hcount, hnothing, hsame⟩ :=
    merging_in_turn madeAnimal.keyed madeWolf.keyed hopen (made_creature hcub).2
  have ⟨_, hflat', hfacts⟩ := bind_eq_ok_iff.mp hfacts
  cases hflat.symm.trans hflat'
  have ⟨_, hall', hfacts⟩ := bind_eq_ok_iff.mp hfacts
  cases hall.symm.trans hall'
  exact ⟨animal, wolf, cub, flat, once, all, hanimal, hwolf, hcub, hflat, hall, honce, hdirect,
    hcount, hnothing, hsame, Except.ok.inj hfacts⟩

end ModelAssembly
