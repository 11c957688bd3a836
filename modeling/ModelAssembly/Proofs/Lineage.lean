import ModelAssembly.Proofs.Arena
import ModelAssembly.Proofs.Merging
/-!
Lineages: the chain of parents from a description to a built-in one. Where each description was
merged with its parent, its members are those that were written along its lineage: the nearest
description that has a member of a role and name provides it, and those of farther descriptions
come first.

Main statement: `members_of_lineage`.
-/

namespace ModelAssembly

namespace Member

-- The copy of a member of the description `ancestor` that comes down to others.
def copiedFrom (x : Member) (ancestor : String) : Member :=
  { x with inheritedFrom := some ancestor }

variable {x : Member} {name ancestor : String}

theorem inheritedVia_of_none (h : x.inheritedFrom = none) :
    x.inheritedVia name = x.copiedFrom name := by
  simp [inheritedVia, copiedFrom, h]

@[simp]
theorem inheritedVia_copiedFrom :
    (x.copiedFrom ancestor).inheritedVia name = x.copiedFrom ancestor := rfl

@[simp]
theorem inheritedVia_inheritedVia :
    (x.inheritedVia ancestor).inheritedVia name = x.inheritedVia ancestor := rfl

@[simp]
theorem key_copiedFrom : (x.copiedFrom ancestor).key = x.key := rfl

end Member

namespace Model

-- `path` leads from one description to the next by declared parents, all of them of the kind
-- `kind`, and the last has the built-in parent `name`.
inductive Lineage (m : Model) (kind : DescriptionKind) : List Nat → String → Prop
  | builtIn {i : Nat} {d : Description} {name : String} : m.get? i = some d → d.kind = kind →
    d.parent = some (.builtIn name) → Lineage m kind [i] name
  | declared {i j : Nat} {d : Description} {path : List Nat} {name : String} : m.get? i = some d →
    d.kind = kind → d.parent = some (.declared j) → Lineage m kind (j :: path) name →
    Lineage m kind (i :: j :: path) name

namespace Lineage

variable {m : Model} {kind : DescriptionKind} {i j : Nat} {path : List Nat} {name : String}

theorem exists_head : m.Lineage kind (i :: path) name → ∃ d, m.get? i = some d ∧ d.kind = kind
  | .builtIn hd hk _ | .declared hd hk _ _ => ⟨_, hd, hk⟩

theorem kind_of_get? {d : Description} (h : m.Lineage kind (i :: path) name)
    (hd : m.get? i = some d) :
    d.kind = kind := by
  have ⟨e, he, hk⟩ := h.exists_head
  cases hd.symm.trans he
  exact hk

theorem parent_of_singleton :
    m.Lineage kind [i] name → ∃ d, m.get? i = some d ∧ d.parent = some (.builtIn name)
  | .builtIn hd _ hp => ⟨_, hd, hp⟩

theorem parent_of_cons : m.Lineage kind (i :: j :: path) name →
    (∃ d, m.get? i = some d ∧ d.parent = some (.declared j)) ∧ m.Lineage kind (j :: path) name
  | .declared hd _ hp hl => ⟨⟨_, hd, hp⟩, hl⟩

end Lineage

-- The members that are written for each description, by the index of the description.
structure OwnMembers (own : Nat → OrderedMap MemberKey Member) : Prop where
  keyed : ∀ i, (own i).KeyedBy Member.key
  inheritedFrom : ∀ i k x, (own i).get? k = some x → x.inheritedFrom = none

-- The description at `i` has the members `own i` and, in front of them, what its parent passes on.
def Filled (m : Model) (own : Nat → OrderedMap MemberKey Member) (i : Nat) : Prop :=
  ∀ d, m.get? i = some d →
    d.members = ({ d with members := own i }.mergedWith (m.parentOf i)).members

def nameOf (m : Model) (i : Nat) : String := ((m.get? i).map (·.name)).getD ""

-- Whether none of `is` has a member of the role and name of `x`.
def unshadowed (own : Nat → OrderedMap MemberKey Member) (is : List Nat) (x : Member) : Bool :=
  is.all fun i => !(own i).contains x.key

-- What comes down from `ancestors` past the descriptions `below`, from the farthest first.
def comingDown (m : Model) (own : Nat → OrderedMap MemberKey Member) :
    (below ancestors : List Nat) → List Member
  | _, [] => []
  | below, p :: ps =>
    m.comingDown own (below ++ [p]) ps ++
      ((own p).values.filter (unshadowed own below)).map (·.copiedFrom (m.nameOf p))

variable {m : Model} {own : Nat → OrderedMap MemberKey Member} {kind : DescriptionKind}
  {name : String} {i : Nat} {is below ancestors : List Nat} {d b : Description}

theorem OwnMembers.inheritedFrom_of_mem {x : Member} (ho : OwnMembers own)
    (hx : x ∈ (own i).values) :
    x.inheritedFrom = none :=
  have ⟨k, hk⟩ := OrderedMap.mem_values_iff.mp hx
  ho.inheritedFrom i k x hk

theorem nameOf_of_get? (h : m.get? i = some d) : m.nameOf i = d.name := by
  simp [nameOf, h]

theorem unshadowed_cons :
    unshadowed own (i :: is) = fun x => !(own i).contains x.key && unshadowed own is x :=
  funext fun _ => List.all_cons

theorem unshadowed_singleton : unshadowed own [i] = fun x => !(own i).contains x.key :=
  funext fun _ => Bool.and_true _

-- Of what comes down past `below`, the description at `i` shadows its share.
theorem comingDown_cons (i : Nat) (below ancestors : List Nat) (via : String) :
    ((m.comingDown own below ancestors).filter fun x => !(own i).contains x.key).map
      (·.inheritedVia via) = m.comingDown own (i :: below) ancestors := by
  induction ancestors generalizing below
  case nil => rfl
  case cons p ps hi =>
    simp only [comingDown, List.filter_append, List.map_append, hi, List.cons_append]
    congr 1
    simp only [List.filter_map, List.filter_filter, List.map_map, Function.comp_def,
      Member.key_copiedFrom, Member.inheritedVia_copiedFrom, unshadowed_cons]

-- What passes on to the description at `i` from a parent that has the members of the built-in `b`
-- and of `ancestors` in front of its own.
theorem passed_on (ho : OwnMembers own) (i p : Nat) (ancestors : List Nat) :
    ((((b.members.values.filter (unshadowed own (p :: ancestors))).map (·.inheritedVia b.name) ++
        m.comingDown own [p] ancestors ++ (own p).values).filter
          fun x => !(own i).contains x.key).map (·.inheritedVia (m.nameOf p))) =
      (b.members.values.filter (unshadowed own (i :: p :: ancestors))).map
        (·.inheritedVia b.name) ++ m.comingDown own [i] (p :: ancestors) := by
  have hown : ((own p).values.filter fun x => !(own i).contains x.key).map
      (·.inheritedVia (m.nameOf p)) =
        ((own p).values.filter (unshadowed own [i])).map (·.copiedFrom (m.nameOf p)) := by
    rw [unshadowed_singleton]
    apply List.map_congr_left
    intro x hx
    exact Member.inheritedVia_of_none (ho.inheritedFrom_of_mem (List.mem_of_mem_filter hx))
  have hbase : (((b.members.values.filter (unshadowed own (p :: ancestors))).map
      (·.inheritedVia b.name)).filter fun x => !(own i).contains x.key).map
        (·.inheritedVia (m.nameOf p)) =
      (b.members.values.filter (unshadowed own (i :: p :: ancestors))).map
        (·.inheritedVia b.name) := by
    rw [unshadowed_cons (i := i)]
    simp only [List.filter_map, List.filter_filter, List.map_map, Function.comp_def,
      Member.key_inheritedVia, Member.inheritedVia_inheritedVia]
  rw [List.filter_append, List.filter_append, List.map_append, List.map_append, hbase,
    comingDown_cons, hown, comingDown, List.append_assoc]
  rfl

theorem passed_on_get? (ho : OwnMembers own) (p : Nat) (ancestors : List Nat) (k : MemberKey) :
    ((((own p).get? k).or
      ((ancestors.findSome? fun q => ((own q).get? k).map (·.copiedFrom (m.nameOf q))).or
        ((b.members.get? k).map (·.inheritedVia b.name)))).map (·.inheritedVia (m.nameOf p))) =
      ((p :: ancestors).findSome? fun q => ((own q).get? k).map (·.copiedFrom (m.nameOf q))).or
        ((b.members.get? k).map (·.inheritedVia b.name)) := by
  have hown : ((own p).get? k).map (·.inheritedVia (m.nameOf p)) =
      ((own p).get? k).map (·.copiedFrom (m.nameOf p)) := by
    apply Option.map_congr
    intro x hx
    exact Member.inheritedVia_of_none (ho.inheritedFrom p k x hx)
  have hrest : (ancestors.findSome? fun q =>
      ((own q).get? k).map (·.copiedFrom (m.nameOf q))).map (·.inheritedVia (m.nameOf p)) =
        ancestors.findSome? fun q => ((own q).get? k).map (·.copiedFrom (m.nameOf q)) := by
    simp [List.map_findSome?, Function.comp_def]
  have hbase : ((b.members.get? k).map (·.inheritedVia b.name)).map (·.inheritedVia (m.nameOf p)) =
      (b.members.get? k).map (·.inheritedVia b.name) := by
    rw [Option.map_map]
    rfl
  rw [Option.map_or, Option.map_or, hown, hrest, hbase, List.findSome?_cons, ← Option.or_assoc]
  cases (own p).get? k <;> rfl

theorem members_of_lineage (hl : m.Lineage kind (i :: ancestors) name) (ho : OwnMembers own)
    (hf : ∀ p ∈ i :: ancestors, m.Filled own p) (hb : m.registry.lookup name = some b)
    (hk : b.Keyed) (hd : m.get? i = some d) :
    d.Keyed ∧
    (∀ k, d.members.get? k = ((own i).get? k).or
      ((ancestors.findSome? fun p => ((own p).get? k).map (·.copiedFrom (m.nameOf p))).or
        ((b.members.get? k).map (·.inheritedVia b.name)))) ∧
    d.members.values = (b.members.values.filter (unshadowed own (i :: ancestors))).map
      (·.inheritedVia b.name) ++ m.comingDown own [i] ancestors ++ (own i).values := by
  have hkeyed : ({ d with members := own i } : Description).Keyed := ho.keyed i
  induction ancestors generalizing i d
  case nil =>
    obtain ⟨e, he, hp⟩ := hl.parent_of_singleton
    cases hd.symm.trans he
    have hpar : m.parentOf i = some b := by simp [parentOf, hd, hp, resolve, hb]
    have hm := hf i List.mem_cons_self d hd
    rw [hpar] at hm
    refine ⟨?keyed, ?get, ?values⟩
    case keyed =>
      rw [Description.Keyed, hm]
      exact hkeyed.mergedWith (some b)
    case get =>
      intro k
      rw [hm, Description.get?_mergedWith hk]
      rfl
    case values =>
      rw [hm, Description.values_mergedWith hk, unshadowed_singleton]
      simp [comingDown, Description.hasMember]
  case cons p ancestors hi =>
    obtain ⟨⟨e, he, hp⟩, hl⟩ := hl.parent_of_cons
    cases hd.symm.trans he
    obtain ⟨dp, hdp, _⟩ := hl.exists_head
    have hpar : m.parentOf i = some dp := by simp [parentOf, hd, hp, resolve, hdp]
    have hm := hf i List.mem_cons_self d hd
    rw [hpar] at hm
    obtain ⟨hkp, hget, hvalues⟩ :=
      hi hl (fun q hq => hf q (List.mem_cons_of_mem i hq)) hdp (ho.keyed p)
    have hname : m.nameOf p = dp.name := nameOf_of_get? hdp
    refine ⟨?keyed, ?get, ?values⟩
    case keyed =>
      rw [Description.Keyed, hm]
      exact hkeyed.mergedWith (some dp)
    case get =>
      intro k
      rw [hm, Description.get?_mergedWith hkp, hget, ← hname, passed_on_get? ho p ancestors k]
    case values =>
      rw [hm, Description.values_mergedWith hkp, hvalues, ← hname]
      exact congrArg (· ++ (own i).values) (passed_on ho i p ancestors)

end Model
end ModelAssembly
