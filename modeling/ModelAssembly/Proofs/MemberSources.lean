import ModelAssembly.Proofs.BuiltInParents
import ModelAssembly.Proofs.Flattening
import ModelAssembly.Proofs.GraftBlocks
import ModelAssembly.Proofs.Outline
/-!
Sources of members: where the members of the descriptions in an assembled model come from. Each is
declared where it stands, or it is a copy of a member of the parent. A copy keeps no more than the
name of its source, and an outline leaves it out if a built-in description goes by this name.

Main statements: `traced_of_assembledOver` follows each member to the parent; `Traced.exists_source`
follows it to its only source; `outline_hides_by_name` says what an outline shows of it.
-/

namespace ModelAssembly

open Model Description

namespace Description

variable {d : Description} {p : Option Description} {k : MemberKey} {x : Member}

theorem get?_mergedWith_of_own (h : d.members.get? k = some x) :
    (d.mergedWith p).members.get? k = some x := by
  cases p
  case none => exact h
  case some p =>
    have hm : (d.mergedWith (some p)).members =
        (d.inheritable p.name p.members.values).merge d.members := rfl
    rw [hm, OrderedMap.get?_merge, h, Option.some_or]

-- A member of a description that was merged is its own, or a copy.
theorem own_or_copied (hp : ∀ q, p = some q → q.Keyed)
    (hx : (d.mergedWith p).members.get? k = some x) : d.members.get? k = some x ∨
      ∃ q y, p = some q ∧ q.members.get? k = some y ∧ x = y.inheritedVia q.name := by
  cases p
  case none => exact .inl hx
  case some q =>
    rw [get?_mergedWith (hp q rfl), Option.or_eq_some_iff] at hx
    cases hx
    case inl hx => exact .inl hx
    case inr hx =>
      have ⟨y, hy, he⟩ := Option.map_eq_some_iff.mp hx.2
      exact .inr ⟨q, y, rfl, hy, he.symm⟩

end Description

namespace Assembler.Run

open Declarations

variable {a : Assembler} {r : Request} {m : Model} (run : Run a r m) {i j : Nat}
  {d : Description} {k : MemberKey} {x : Member}

-- The members that are declared for an own description: for the root, those of all global scopes.
def declaredAt (i : Nat) : OrderedMap MemberKey Member :=
  if i = rootIndex then globals r.trees else run.own i

theorem inheritedFrom_of_declaredAt (h : (run.declaredAt i).get? k = some x) :
    x.inheritedFrom = none := by
  rw [declaredAt] at h
  split at h
  case isTrue => exact inheritedFrom_of_globals h
  case isFalse => exact run.ownMembers_own.inheritedFrom i k x h

theorem keyed_declaredAt (i : Nat) : (run.declaredAt i).KeyedBy Member.key := by
  rw [declaredAt]
  split
  case isTrue =>
    refine OrderedMap.keyedBy_ofList fun e he => ?_
    have ⟨_, _, _, _, he⟩ := mem_allGiven he
    have ⟨_, _, he⟩ := List.mem_map.mp he
    exact he ▸ rfl
  case isFalse => exact run.ownMembers_own.keyed i

-- What a species or an experiment has at the end, seen in the model in which its kind was merged.
theorem exists_filled (hd : m.get? i = some d) (hk : d.kind ≠ .model)
    (hi : run.model.isKin d.kind i = true) : ∃ (n : Model) (e : Description),
      (d.kind = .species → ∀ j, run.model.isKin .experiment j = true →
        n.get? j = run.inherited.get? j) ∧
      n.parentOf i = d.parent.bind n.resolve ∧ e.members = run.declaredAt i ∧
      d.members = (e.mergedWith (n.parentOf i)).members := by
  have h0 := run.ne_rootIndex hd hk
  have ⟨_, _, hc⟩ := run.exists_cuts
  have ⟨n, e, d', _, hsame, hearlier, hd', hown, hm⟩ := hc.exists_filled hk hi
  have ⟨x, d'', hx, hd'', hl⟩ := run.get?_of_lt h0 (run.placed_of_isKin hk hi).2
  cases hd.symm.trans hd''
  cases hd'.symm.trans (hsame i hi ▸ hx)
  refine ⟨n, e, hearlier, ?_, ?_, hl.members.trans hm⟩
  case refine_1 => rw [parentOf, hd', Option.bind_some, ← hl.refilled.parent]
  case refine_2 => rw [hown, declaredAt, if_neg h0]

-- What declared species and experiments extend was declared, too; experiments extend experiments.
theorem extends_final (hd : m.get? i = some d) (hk : d.kind ≠ .model)
    (hi : run.model.isKin d.kind i = true) (hp : d.parent = some (.declared j)) :
    run.base ≤ j ∧ j < run.model.size ∧
      (d.kind = .experiment → run.model.isKin .experiment j = true) := by
  have ⟨_, _, _, _, hleft⟩ := run.exists_linksLeft
  have hlink := (hleft i j ⟨d, hd, hp⟩).1
  have ⟨hj, hjlt, hexperiment⟩ := run.extends_of_placed (run.placed_of_isKin hk hi).1 hlink
  exact ⟨hj, hjlt, fun hx => hexperiment (hx ▸ hi)⟩

section

variable (hr : a.registry.Built) (hd : m.get? i = some d) (ho : d.isOwn = true)

include run hr hd ho

-- An own description has what is declared for it and what some other one passed on.
theorem exists_merged : ∃ (e : Description) (p : Option Description),
    e.members = run.declaredAt i ∧ d.members = (e.mergedWith p).members := by
  by_cases h0 : i = rootIndex
  case pos =>
    have hroot : m.root = d := root_eq_iff.mpr (h0 ▸ hd)
    have hfilled := run.filled_root
    rw [hroot] at hfilled
    exact ⟨_, _, (if_pos h0).symm, hfilled⟩
  case neg =>
    have hk := run.kind_final h0 hd ho
    cases run.isKin_or_scheduler hd hk ho
    case inl hi =>
      have ⟨_, e, _, _, he, hm⟩ := run.exists_filled hd hk hi
      exact ⟨e, _, he, hm⟩
    case inr hs =>
      have hfilled := run.filled_scheduler hr hs.1
      exact ⟨_, _, (if_neg h0).symm, hs.2.1 ▸ hfilled d (hs.2.1 ▸ hd)⟩

theorem keyed_own : d.Keyed := by
  have ⟨e, p, he, hm⟩ := run.exists_merged hr hd ho
  have hkeyed : e.Keyed := by
    rw [Keyed, he]
    exact run.keyed_declaredAt i
  have hmerged : (e.mergedWith p).Keyed := hkeyed.mergedWith p
  rwa [Keyed, ← hm] at hmerged

theorem get?_of_declaredAt (hx : (run.declaredAt i).get? k = some x) :
    d.members.get? k = some x := by
  have ⟨e, p, he, hm⟩ := run.exists_merged hr hd ho
  rw [hm]
  exact get?_mergedWith_of_own (he ▸ hx)

-- The link of an own description leads to an own description, or to a registered one.
theorem parent_own : ∃ link, d.parent = some link ∧
    (∀ name, link = .builtIn name → (a.registry.lookup name).isSome) ∧
    ∀ j, link = .declared j → j ≠ rootIndex ∧ ∃ e, m.get? j = some e ∧ e.isOwn = true := by
  by_cases h0 : i = rootIndex
  case pos =>
    have ⟨builtIn, hp⟩ := run.root_final.2.2.2
    rw [root_eq_iff.mpr (h0 ▸ hd)] at hp
    refine ⟨_, hp, fun _ hname => ?_, fun _ hj => by cases hj⟩
    cases hname
    exact Registry.isSome_lookup_of_table (run.table_of_builtIn hr hd ho hp)
  case neg =>
    have ⟨link, hp, hreg, hplaced⟩ := run.parent_final hd (run.kind_final h0 hd ho) ho hr
    refine ⟨link, hp, run.registry_final ▸ hreg, fun j hj => ?_⟩
    have ⟨hb, hlt⟩ := hplaced j hj
    have hj0 : j ≠ rootIndex := Nat.ne_of_gt (Nat.lt_of_lt_of_le run.base_pos hb)
    have ⟨x, hx⟩ := get?_of_lt_size hlt
    have ⟨e, he, _⟩ := run.bare_final hj0 hx
    exact ⟨hj0, e, he, (run.isOwn_final hj0 he).mpr hb⟩

-- Where the parent is of another kind, a species extends an experiment, and gets no more than what
-- is declared for that.
omit hr in
theorem merged_with_experiment (hp : d.parent = some (.declared j)) {e : Description}
    (he : m.get? j = some e) (hne : e.kind ≠ d.kind) :
    ∃ c q : Description, c.members = run.declaredAt i ∧ q.members = run.declaredAt j ∧
      q.name = e.name ∧ d.members = (c.mergedWith (some q)).members := by
  have hk := run.kind_final (run.ne_rootIndex_of_extends ⟨d, hd, hp⟩) hd ho
  cases run.isKin_or_scheduler hd hk ho
  case inr hs => cases hp.symm.trans hs.2.2.parent
  case inl hi =>
    have ⟨hj, hjlt, hexperiment⟩ := run.extends_final hd hk hi hp
    have hj0 : j ≠ rootIndex := Nat.ne_of_gt (Nat.lt_of_lt_of_le run.base_pos hj)
    have ⟨y, hy⟩ := get?_of_lt_size hjlt
    have ⟨e', he', hbare⟩ := run.bare_final hj0 hy
    cases he.symm.trans he'
    have hkind {kind : DescriptionKind} (h : run.model.isKin kind j = true) : e.kind = kind := by
      have ⟨_, hy', hyk, _⟩ := isKin_iff.mp h
      cases hy.symm.trans hy'
      exact (kind_of_bare hbare).trans hyk
    have ⟨hspecies, hkj⟩ : d.kind = .species ∧ run.model.isKin .experiment j = true := by
      cases run.isKin_of_placed (run.placed_of_isKin hk hi).1 (run.placed_of_isKin hk hi).2
      case inl hki =>
        have hspecies := isKin_unique hi hki
        refine ⟨hspecies, (run.isKin_of_placed hj hjlt).resolve_left fun hkj => ?_⟩
        exact hne ((hkind hkj).trans hspecies.symm)
      case inr hki =>
        have hx := isKin_unique hi hki
        exact absurd ((hkind (hexperiment hx)).trans hx.symm) hne
    have ⟨n, c, hearlier, hpar, hown, hm⟩ := run.exists_filled hd hk hi
    have ⟨q, hq, hfilled⟩ := run.refilled_inherited.get? hy
    have hname : q.name = e.name := (name_of_bare hfilled.bare).trans (name_of_bare hbare).symm
    have hparent : n.parentOf i = some q := by
      rw [hpar, hp, Option.bind_some, resolve, hearlier hspecies j hkj, hq]
    refine ⟨c, q, hown, ?_, hname, by rw [hm, hparent]⟩
    rw [run.members_inherited hj hq, declaredAt, if_neg hj0]

theorem keyed_parent_own {p : Description} (hp : m.parentOf i = some p) : p.Keyed := by
  obtain ⟨link, hlink, -, hown⟩ := run.parent_own hr hd ho
  rw [parentOf, hd, Option.bind_some, hlink, Option.bind_some] at hp
  cases link
  case builtIn =>
    rw [resolve, run.registry_final] at hp
    exact hr.keyed hp
  case declared j =>
    obtain ⟨_, e, he, heo⟩ := hown j rfl
    cases hp.symm.trans he
    exact run.keyed_own hr he heo

-- A member that is not declared for an own description is a copy of one of the parent.
theorem copied_own (hx : d.members.get? k = some x) :
    (run.declaredAt i).get? k = some x ∨
      ∃ p y, m.parentOf i = some p ∧ p.members.get? k = some y ∧ x = y.inheritedVia p.name := by
  have ⟨link, hlink, _, hown⟩ := run.parent_own hr hd ho
  have hparent (p : Description) : m.parentOf i = some p → p.Keyed := run.keyed_parent_own hr hd ho
  by_cases h0 : i = rootIndex
  case pos =>
    have hroot : m.root = d := root_eq_iff.mpr (h0 ▸ hd)
    have hfilled := run.filled_root
    rw [hroot, ← h0] at hfilled
    rw [hfilled] at hx
    rw [declaredAt, if_pos h0]
    exact own_or_copied hparent hx
  case neg =>
    by_cases hsame : ∀ j e, d.parent = some (.declared j) → m.get? j = some e → e.kind = d.kind
    case pos =>
      have hfilled := run.filled_of_own hd (run.kind_final h0 hd ho) ho hr hsame d hd
      rw [hfilled] at hx
      rw [declaredAt, if_neg h0]
      exact own_or_copied hparent hx
    case neg =>
      push Not at hsame
      obtain ⟨j, e, hp, he, hne⟩ := hsame
      have ⟨_, e', he', heo⟩ := hown j (Option.some.inj (hlink.symm.trans hp))
      cases he.symm.trans he'
      have ⟨c, q, hc, hq, hname, hm⟩ := run.merged_with_experiment hd ho hp he hne
      have hkeyed (q') (hq' : some q = some q') : q'.Keyed := by
        cases hq'
        rw [Keyed, hq]
        exact run.keyed_declaredAt j
      rw [hm] at hx
      cases own_or_copied hkeyed hx
      case inl hx => exact .inl (hc ▸ hx)
      case inr h =>
        obtain ⟨_, y, hq', hy, rfl⟩ := h
        cases hq'
        have hy := run.get?_of_declaredAt hr he heo (hq ▸ hy)
        refine .inr ⟨e, y, ?_, hy, by rw [hname]⟩
        rw [parentOf, hd, Option.bind_some, hp, Option.bind_some, resolve, he]

-- What is declared for an own description are the members that are not inherited.
theorem get?_declaredAt_iff : (run.declaredAt i).get? k = some x ↔
    d.members.get? k = some x ∧ x.inheritedFrom = none := by
  constructor
  case mp =>
    exact fun h => ⟨run.get?_of_declaredAt hr hd ho h, run.inheritedFrom_of_declaredAt h⟩
  case mpr =>
    intro ⟨hx, hnone⟩
    cases run.copied_own hr hd ho hx
    case inl h => exact h
    case inr h =>
      obtain ⟨p, y, _, _, rfl⟩ := h
      cases hnone

end

end Assembler.Run

namespace Model

-- Each member of the description `d` at `i` is declared there or copied from the parent.
structure TracedAt (m : Model) (i : Nat) (d : Description) : Prop where
  keyed : d.Keyed
  parent : ∃ link, d.parent = some link ∧
    (∀ name, link = .builtIn name → (m.registry.lookup name).isSome) ∧
    ∀ j, link = .declared j → j < m.size
  copied : ∀ k x, d.members.get? k = some x → x.inheritedFrom = none ∨
    ∃ p y, m.parentOf i = some p ∧ p.members.get? k = some y ∧ x = y.inheritedVia p.name

def Traced (m : Model) : Prop := ∀ i d, m.get? i = some d → m.TracedAt i d

-- The models that come of the assembler over a registry when all that it grafts does.
inductive AssembledOver (registry : Registry) : Model → Prop
  | assemble {a : Assembler} {r : Request} {m : Model} : a.registry = registry →
    (∀ g ∈ r.grafts.entries, AssembledOver registry g.2) → (a.assemble r).result = .ok m →
    AssembledOver registry m

end Model

namespace Assembler.Run

variable {a : Assembler} {r : Request} {m : Model} (run : Run a r m) {i : Nat} {d : Description}

include run

theorem traced_own (hr : a.registry.Built) (hd : m.get? i = some d) (ho : d.isOwn = true) :
    m.TracedAt i d where
  keyed := run.keyed_own hr hd ho
  parent := by
    have ⟨link, hp, hreg, hown⟩ := run.parent_own hr hd ho
    refine ⟨link, hp, run.registry_final ▸ hreg, fun j hj => ?_⟩
    have ⟨_, _, he, _⟩ := hown j hj
    exact lt_size_of_get? he
  copied k x hx := (run.copied_own hr hd ho hx).imp_left run.inheritedFrom_of_declaredAt

-- What was traced in a graft is traced where that stands.
theorem traced_grafted (hg : ∀ g ∈ r.grafts.entries, g.2.registry = a.registry ∧ g.2.Traced ∧
      ∀ i d, g.2.get? i = some d → d.isFinalized = true)
    (hd : m.get? i = some d) (ho : d.isOwn ≠ true) : m.TracedAt i d := by
  have h0 : i ≠ rootIndex := by
    intro h0
    exact ho (root_eq_iff.mpr (h0 ▸ hd) ▸ run.root_final.2.2.1)
  have hlt : i < run.base := Nat.lt_of_not_le fun hi => ho ((run.isOwn_final h0 hd).mpr hi)
  have ⟨g, hmem, offset, t, _, _, hi, ht, hblock⟩ := run.exists_block (Nat.pos_of_ne_zero h0) hlt
  have ⟨hreg, htraced, hfin⟩ := hg g hmem
  have hmove (j : Nat) (e : Description) (he : g.2.get? j = some e) : ∃ owner,
      m.get? (j + offset) = some (e.shift offset owner g.1) := by
    have hshift := hblock j (lt_size_of_get? he)
    rw [he] at hshift
    exact ⟨_, Nat.add_comm offset j ▸ run.operations.get?_of_finalized hshift (hfin j e he)⟩
  have ⟨e, he⟩ := get?_of_lt_size ht
  have ⟨owner, hm⟩ := hmove t e he
  cases hd.symm.trans (hi ▸ Nat.add_comm offset t ▸ hm)
  have hat := htraced t e he
  have ⟨link, hp, hregistered, hin⟩ := hat.parent
  have hparent (p : Description) (h : g.2.parentOf t = some p) : g.2.resolve link = some p := by
    rwa [parentOf, he, Option.bind_some, hp] at h
  cases link
  case builtIn name =>
    have hlink : (e.shift offset owner g.1).parent = some (.builtIn name) := by
      rw [Description.shift, hp]
      rfl
    refine ⟨hat.keyed, ⟨_, hlink, fun _ hname => ?_, fun _ hj => ?_⟩, fun k x hx => ?_⟩
    case refine_1 =>
      cases hname
      rw [run.registry_final, ← hreg]
      exact hregistered name rfl
    case refine_2 => cases hj
    case refine_3 =>
      refine (hat.copied k x hx).imp_right fun hcopied => ?_
      obtain ⟨p, y, hpar, hy, hcopy⟩ := hcopied
      refine ⟨p, y, ?_, hy, hcopy⟩
      rw [parentOf, hd, Option.bind_some, hlink, Option.bind_some, resolve, run.registry_final,
        ← hreg]
      exact hparent p hpar
  case declared j =>
    have hlink : (e.shift offset owner g.1).parent = some (.declared (j + offset)) := by
      rw [Description.shift, hp]
      rfl
    obtain ⟨q, hq⟩ := get?_of_lt_size (hin j rfl)
    obtain ⟨owner', hmq⟩ := hmove j q hq
    have hmpar : m.parentOf i = some (q.shift offset owner' g.1) := by
      rw [parentOf, hd, Option.bind_some, hlink, Option.bind_some, resolve, hmq]
    refine ⟨hat.keyed, ⟨_, hlink, fun _ hname => ?_, fun _ hj => ?_⟩, fun k x hx => ?_⟩
    case refine_1 => cases hname
    case refine_2 =>
      cases hj
      exact lt_size_of_get? hmq
    case refine_3 =>
      refine (hat.copied k x hx).imp_right fun hcopied => ?_
      obtain ⟨p, y, hpar, hy, hcopy⟩ := hcopied
      cases hq.symm.trans (hparent p hpar)
      exact ⟨_, y, hmpar, hy, hcopy⟩

end Assembler.Run

namespace Model

-- The description at `i` has a member with the key `k` of its own.
def DeclaresMember (m : Model) (k : MemberKey) (i : Nat) : Prop :=
  ∃ d x, m.get? i = some d ∧ d.members.get? k = some x ∧ x.inheritedFrom = none

-- The description at `i` has a copy of a member with the key `k`, and `link` leads to its parent.
def InheritsMember (m : Model) (k : MemberKey) (i : Nat) (link : ParentLink) : Prop :=
  ∃ d x, m.get? i = some d ∧ d.members.get? k = some x ∧ x.inheritedFrom ≠ none ∧
    d.parent = some link

-- Where the member with the key `k` of a description is declared: in a description of the model, or
-- else beyond the built-in one of a name.
inductive Source (m : Model) (k : MemberKey) : Nat → ParentLink → Prop
  | own {i : Nat} : m.DeclaresMember k i → Source m k i (.declared i)
  | builtIn {i : Nat} {name : String} : m.InheritsMember k i (.builtIn name) →
    Source m k i (.builtIn name)
  | inherited {i j : Nat} {source : ParentLink} : m.InheritsMember k i (.declared j) →
    Source m k j source → Source m k i source

-- What the member `x` of the description at `i` keeps of its source.
inductive Recorded (m : Model) (k : MemberKey) (i : Nat) (x : Member) : ParentLink → Prop
  | own : x.inheritedFrom = none → Recorded m k i x (.declared i)
  | declared {j : Nat} {e : Description} : j ≠ i → m.get? j = some e →
    x.inheritedFrom = some e.name → Recorded m k i x (.declared j)
  | builtIn {name : String} {b : Description} {y : Member} : m.registry.lookup name = some b →
    b.members.get? k = some y → x.inheritedFrom = some (y.inheritedFrom.getD b.name) →
    Recorded m k i x (.builtIn name)

variable {m : Model} {i j : Nat} {k : MemberKey} {d : Description} {x : Member}
  {link link' source source' : ParentLink}

theorem InheritsMember.not_declares (h : m.InheritsMember k i link) : ¬ m.DeclaresMember k i := by
  intro ⟨d, x, hd, hx, hnone⟩
  have ⟨d', x', hd', hx', hsome, _⟩ := h
  cases hd.symm.trans hd'
  cases hx.symm.trans hx'
  exact hsome hnone

theorem InheritsMember.unique (h : m.InheritsMember k i link) (h' : m.InheritsMember k i link') :
    link = link' := by
  have ⟨d, _, hd, _, _, hp⟩ := h
  have ⟨d', _, hd', _, _, hp'⟩ := h'
  cases hd.symm.trans hd'
  exact Option.some.inj (hp.symm.trans hp')

theorem Source.unique (h : m.Source k i source) (h' : m.Source k i source') :
    source = source' := by
  induction h generalizing source'
  case own h =>
    cases h'
    case own => rfl
    case builtIn hp => exact absurd h hp.not_declares
    case inherited hp _ => exact absurd h hp.not_declares
  case builtIn h =>
    cases h'
    case own hp => exact absurd hp h.not_declares
    case builtIn hp => exact h.unique hp
    case inherited hp _ => cases h.unique hp
  case inherited h _ hi =>
    cases h'
    case own hp => exact absurd hp h.not_declares
    case builtIn hp => cases h.unique hp
    case inherited hp hs =>
      cases h.unique hp
      exact hi hs

theorem Source.declares (h : m.Source k i (.declared j)) : m.DeclaresMember k j := by
  generalize hs : ParentLink.declared j = source at h
  induction h
  case own h =>
    cases hs
    exact h
  case builtIn => cases hs
  case inherited hi => exact hi hs

-- Following a member from child to parent ends where it is declared.
theorem Traced.exists_source {name : String} (h : m.Traced) (hi : m.Descends i name)
    (hd : m.get? i = some d) (hx : d.members.get? k = some x) :
    ∃ source, m.Source k i source ∧ m.Recorded k i x source := by
  induction hi generalizing d x
  case builtIn i e name he hp =>
    cases hd.symm.trans he
    cases (h i e hd).copied k x hx
    case inl hnone => exact ⟨_, .own ⟨e, x, hd, hx, hnone⟩, .own hnone⟩
    case inr hcopy =>
      obtain ⟨p, y, hpar, hy, rfl⟩ := hcopy
      rw [parentOf, hd, Option.bind_some, hp, Option.bind_some] at hpar
      exact ⟨_, .builtIn ⟨e, _, hd, hx, Option.some_ne_none _, hp⟩, .builtIn hpar hy rfl⟩
  case declared i j e name he hp _ ih =>
    cases hd.symm.trans he
    cases (h i e hd).copied k x hx
    case inl hnone => exact ⟨_, .own ⟨e, x, hd, hx, hnone⟩, .own hnone⟩
    case inr hcopy =>
      obtain ⟨p, y, hpar, hy, rfl⟩ := hcopy
      rw [parentOf, hd, Option.bind_some, hp, Option.bind_some] at hpar
      have hinherits : m.InheritsMember k i (.declared j) :=
        ⟨e, _, hd, hx, Option.some_ne_none _, hp⟩
      obtain ⟨source, hsource, hrecorded⟩ := ih hpar hy
      refine ⟨source, .inherited hinherits hsource, ?_⟩
      have hne (c : Nat) (hs : source = .declared c) : c ≠ i := fun hc =>
        hinherits.not_declares (hc ▸ (hs ▸ hsource).declares)
      cases hrecorded
      case own hnone => exact .declared (hne j rfl) hpar (by simp [Member.inheritedVia, hnone])
      case declared c f _ hf hfrom =>
        exact .declared (hne c rfl) hf (by simp [Member.inheritedVia, hfrom])
      case builtIn hb hz hfrom => exact .builtIn hb hz (by simp [Member.inheritedVia, hfrom])

theorem Source.exists_member (h : m.Source k i source) :
    ∃ d x, m.get? i = some d ∧ d.members.get? k = some x := by
  cases h
  case own h =>
    have ⟨d, x, hd, hx, _⟩ := h
    exact ⟨d, x, hd, hx⟩
  case builtIn h | inherited h _ =>
    have ⟨d, x, hd, hx, _⟩ := h
    exact ⟨d, x, hd, hx⟩

-- All that tells where a member comes from is a name, and that of a description of the model may be
-- registered.
theorem Recorded.hides_iff {e : Description} (h : m.Recorded k i x (.declared j))
    (he : m.get? j = some e) :
    m.hides x = true ↔ j ≠ i ∧ (m.registry.lookup e.name).isSome := by
  cases h
  case own hnone => simp [hides, hnone]
  case declared f hfrom hne hf =>
    cases he.symm.trans hf
    simp [hides, hfrom, hne]

theorem Recorded.hides {name : String} (h : m.Recorded k i x (.builtIn name))
    (hc : m.registry.Consistent) : m.hides x = true := by
  cases h
  case builtIn b y hy hfrom hb =>
    have ⟨kind, ht⟩ := Registry.exists_table_of_lookup hb
    simpa [Model.hides, hfrom] using hc kind name b k y ht hy

open Assembler

variable {registry : Registry}

theorem AssembledOver.assembled (h : AssembledOver registry m) : m.Assembled := by
  induction h
  case assemble hm hg => exact .assemble hg hm

theorem traced_of_assembledOver (hr : registry.Built) (h : AssembledOver registry m) :
    m.registry = registry ∧ m.Sound ∧ (∀ i d, m.get? i = some d → d.isFinalized = true) ∧
      m.Traced := by
  induction h
  case assemble a r m ha _ hm hg =>
    subst ha
    have ⟨run⟩ := exists_run hm
    have hsound := sound_of_assemble hm fun g hmem => (hg g hmem).2.1
    have hfin := isFinalized_of_assemble
      (fun g hmem => ⟨(hg g hmem).2.1.inRange, (hg g hmem).2.2.1⟩) hm
    refine ⟨run.registry_final, hsound, hfin, fun i d hd => ?_⟩
    by_cases ho : d.isOwn = true
    case pos => exact run.traced_own hr hd ho
    case neg =>
      refine run.traced_grafted (fun g hmem => ?_) hd ho
      have ⟨hreg, _, hfin, htraced⟩ := hg g hmem
      exact ⟨hreg, htraced, hfin⟩

-- Following parents ends at a registered description wherever one starts.
theorem Traced.exists_descends (h : m.Traced) (hs : m.Acyclic) (hd : m.get? i = some d) :
    ∃ name, m.Descends i name := by
  have hnext (i : Nat) (hi : i < m.size) : ∃ d link, m.get? i = some d ∧ d.parent = some link ∧
      (∀ name, link = .builtIn name → (m.registry.lookup name).isSome) ∧
      ∀ j, link = .declared j → j < m.size := by
    have ⟨d, hd⟩ := get?_of_lt_size hi
    have ⟨link, hlink⟩ := (h i d hd).parent
    exact ⟨d, link, hd, hlink⟩
  have ⟨name, hn, _⟩ := Model.exists_descends (fun i _ => hs i) hnext (lt_size_of_get? hd)
  exact ⟨name, hn⟩

-- The lines of a description, behind the first one: each is that of a member of its own, of those
-- declared in a description of the model if its name is not registered.
theorem Traced.exists_shown (h : m.Traced) (hs : m.Acyclic) (hd : m.get? i = some d) :
    ∃ shown : List Member,
      m.blockLines i = m.outlineHeader i d :: shown.map (fun x => "  " ++ outlineMember x) ∧
      shown.Sublist d.members.values ∧ (shown.map Member.key).Nodup ∧
      ∀ k x, d.members.get? k = some x → ∃ source,
        (∀ s, m.Source k i s ↔ s = source) ∧ m.Recorded k i x source ∧
        (∀ j e, source = .declared j → m.get? j = some e →
          (x ∈ shown ↔ j = i ∨ m.registry.lookup e.name = none)) ∧
        ∀ name, source = .builtIn name → m.registry.Consistent → x ∉ shown := by
  have hkeys : d.members.values.map Member.key = d.members.keys := (h i d hd).keyed.map_values
  have hsub := List.filter_sublist (l := d.members.values) (p := fun x => !m.hides x)
  have ⟨_, hdescends⟩ := h.exists_descends hs hd
  refine ⟨_, by rw [blockLines, hd], hsub, ?nodup, fun k x hx => ?source⟩
  case nodup => exact (hkeys ▸ d.members.nodup_keys).sublist (hsub.map Member.key)
  case source =>
    have hshown : x ∈ d.members.values.filter (fun x => !m.hides x) ↔ ¬ m.hides x = true := by
      simp [OrderedMap.mem_values_iff.mpr ⟨k, hx⟩]
    obtain ⟨source, hsource, hrec⟩ := h.exists_source hdescends hd hx
    refine ⟨source, fun s => ⟨fun hs => hs.unique hsource, fun hs => hs ▸ hsource⟩, hrec, ?_, ?_⟩
    case refine_1 =>
      rintro j e rfl he
      rw [hshown, hrec.hides_iff he]
      simp [Decidable.or_iff_not_imp_left]
    case refine_2 =>
      rintro name rfl hc
      rw [hshown]
      exact not_not.mpr (hrec.hides hc)

end Model

open Assembler Declarations in
-- The outline of an assembled model shows the members of each description in their order and once
-- each: those that it declares itself, and those that come from another description of the model,
-- unless the name of that is registered. What comes from built-in descriptions is left out. So the
-- outline shows what comes from the model wherever no name of a source in the model is registered.
theorem outline_hides_by_name {a : Assembler} {r : Request} {m : Model}
    (h : (a.assemble r).result = .ok m) (hr : a.registry.Built)
    (hg : ∀ g ∈ r.grafts.entries, AssembledOver a.registry g.2) :
    (∃ level : Nat → Nat, (∀ i n, i < m.size → (m.Depth i n ↔ n = level i)) ∧
      m.outline = String.join ((List.range m.size).flatMap fun i => (m.blockLines i).map fun line =>
        String.join (List.replicate (level i) "  ") ++ line ++ "\n")) ∧
    (∃ own : Nat → OrderedMap MemberKey Member, own rootIndex = globals r.trees ∧
      (∀ i d, i ≠ rootIndex → m.get? i = some d → d.isOwn = true →
        (∃ D owner, d.StandsFor D owner ∧ m.Describes (ofTrees r.trees).1.all i D ∧
          own i = .ofList ((Member.declaredIn D.element).map fun x => (x.key, x))) ∨
        (a.addsScheduler r = true ∧ i + 1 = m.size ∧ d.name = Keyword.scheduler ∧ own i = ∅)) ∧
      ∀ i d k x, m.get? i = some d → d.isOwn = true →
        ((own i).get? k = some x ↔ d.members.get? k = some x ∧ x.inheritedFrom = none)) ∧
    ∀ i d, m.get? i = some d → ∃ shown : List Member,
      m.blockLines i = m.outlineHeader i d :: shown.map (fun x =>
        "  " ++ (x.role.text ++ " " ++ x.name ++
          ((x.inheritedFrom.map fun source => " (from " ++ source ++ ")").getD "") ++
            if x.isAbstract then " [virtual]" else "")) ∧
      shown.Sublist d.members.values ∧ (shown.map Member.key).Nodup ∧
      (∀ k x, d.members.get? k = some x → ∃ source,
        (∀ s, m.Source k i s ↔ s = source) ∧ m.Recorded k i x source ∧
        (∀ j e, source = .declared j → m.get? j = some e →
          (x ∈ shown ↔ j = i ∨ a.registry.lookup e.name = none)) ∧
        ∀ name, source = .builtIn name → a.registry.Consistent → x ∉ shown) ∧
      (a.registry.Consistent →
        ((∀ k x, d.members.get? k = some x → (x ∈ shown ↔ ∃ j, m.Source k i (.declared j))) ↔
          ∀ k j e, m.Source k i (.declared j) → j ≠ i → m.get? j = some e →
            a.registry.lookup e.name = none)) := by
  have hall : AssembledOver a.registry m := .assemble rfl hg h
  have ⟨run⟩ := exists_run h
  have ⟨hreg, hsound, _, htraced⟩ := traced_of_assembledOver hr hall
  have ⟨level, hlevel, hroot, hcontent⟩ := hall.assembled.built.ownerTree.exists_depth
  refine ⟨⟨level, hlevel, ?outline⟩,
    ⟨run.declaredAt, if_pos rfl, fun i d h0 hd ho => ?own, ?declared⟩, fun i d hd => ?shown⟩
  case outline =>
    rw [outline_eq hroot hcontent, hall.assembled.walk_eq]
    rfl
  case own =>
    have hown : run.declaredAt i = run.own i := if_neg h0
    rw [hown]
    exact run.own_final h0 hd ho
  case declared => exact fun i d k x hd ho => run.get?_declaredAt_iff hr hd ho
  case shown =>
    obtain ⟨shown, hlines, hsub, hnodup, hmembers⟩ := htraced.exists_shown hsound.acyclic hd
    rw [hreg] at hmembers
    refine ⟨shown, hlines, hsub, hnodup, hmembers, fun hc => ⟨?hidden, ?clash⟩⟩
    case hidden =>
      intro hexact k j e hs hne he
      obtain ⟨_, x, hd', hx⟩ := hs.exists_member
      cases hd.symm.trans hd'
      obtain ⟨source, hsource, -, hdeclared, -⟩ := hmembers k x hx
      have hmem : x ∈ shown := (hexact k x hx).mpr ⟨j, hs⟩
      exact ((hdeclared j e ((hsource _).mp hs).symm he).mp hmem).resolve_left hne
    case clash =>
      intro hfree k x hx
      obtain ⟨source, hsource, -, hdeclared, hbuiltIn⟩ := hmembers k x hx
      cases source
      case builtIn name =>
        refine iff_of_false (hbuiltIn name rfl hc) fun hj => ?_
        obtain ⟨j, hj⟩ := hj
        cases (hsource _).mp hj
      case declared j =>
        have hs := (hsource _).mpr rfl
        obtain ⟨e, _, he, _⟩ := hs.declares
        refine iff_of_true ((hdeclared j e rfl he).mpr ?_) ⟨j, hs⟩
        exact or_iff_not_imp_left.mpr fun hne => hfree k j e hs hne he

def hikeRegistry : Registry :=
  { Registry.defaults with
    species := Registry.defaults.species.insert "walker" (walker.mergedWith Registry.agent) }

theorem addAll_hikeRegistry : Registry.defaults.addAll [.species walker] = .ok hikeRegistry := rfl

theorem built_hikeRegistry : hikeRegistry.Built ∧ hikeRegistry.Consistent := by
  have hkeyed : walker.Keyed := keyed_builtInWith _ _ _ _ _
  have hall (b) (hb : b ∈ [Addition.species walker]) : b.description.Keyed :=
    List.mem_singleton.mp hb ▸ hkeyed
  refine ⟨(Registry.records_addAll addAll_hikeRegistry hall).built,
    Registry.consistent_addAll addAll_hikeRegistry hall fun b hb k x hx => ?_⟩
  cases List.mem_singleton.mp hb
  cases List.mem_singleton.mp (OrderedMap.mem_of_get?_ofList hx)
  rfl

-- A hiker is a walker, and a guide is a hiker.
def hikeRequest : Request where
  primary := "hike"
  trees := [{
    kind := .model
    name := some "hike"
    children := [
      { kind := .species
        name := some "hiker"
        facets := .ofList [(Keyword.parent, "walker")]
        children := [{ kind := .member .var, name := some "pack" }] },
      { kind := .species
        name := some "guide"
        facets := .ofList [(Keyword.parent, "hiker")] }] }]

-- Neither hikers nor guides are built in, so that the outline shows of a guide what hikers and
-- guides declare.
theorem outline_hides_by_name_on_hike : ∃ (m : Model) (d : Description) (shown : List Member),
    (({ registry := hikeRegistry } : Assembler).assemble hikeRequest).result = .ok m ∧
    m.get? 2 = some d ∧
    m.blockLines 2 = m.outlineHeader 2 d :: shown.map (fun x => "  " ++ outlineMember x) ∧
    ∀ k x, d.members.get? k = some x → (x ∈ shown ↔ ∃ j, m.Source k 2 (.declared j)) := by
  let a : Assembler := { registry := hikeRegistry }
  have hfacts : (a.assemble hikeRequest).result.toOption.map (fun m =>
      ((m.get? 2).isSome, (List.range m.size).all fun j => (m.get? j).all fun e =>
        (hikeRegistry.lookup e.name).isNone)) = some (true, true) := by
    decide +kernel
  have ⟨m, hm, hfacts⟩ := Option.map_eq_some_iff.mp hfacts
  have hm := toOption_eq_some_iff.mp hm
  have ⟨hsome, hfree⟩ := Prod.mk.inj hfacts
  have ⟨d, hd⟩ := Option.isSome_iff_exists.mp hsome
  have ⟨hbuilt, hconsistent⟩ := built_hikeRegistry
  have ⟨_, _, hall⟩ := outline_hides_by_name hm hbuilt fun _ hg => absurd hg List.not_mem_nil
  have ⟨shown, hlines, _, _, _, hiff⟩ := hall 2 d hd
  refine ⟨m, d, shown, hm, hd, hlines, (hiff hconsistent).mpr ?_⟩
  intro _ j e _ _ he
  have hnone := List.all_eq_true.mp hfree j (List.mem_range.mpr (lt_size_of_get? he))
  simpa [he] using hnone

-- A species that is called as the built-in one is, and a child of it.
def litterRequest : Request where
  primary := "main"
  trees := [{
    kind := .model
    name := some "main"
    children := [
      { kind := .species
        name := some Keyword.agent
        children := [{ kind := .member .var, name := some "age" }] },
      { kind := .species
        name := some "cub"
        facets := .ofList [(Keyword.parent, Keyword.agent)] }] }]

-- A cub has the age that the species of the model declares, and the outline leaves it out.
theorem cub_without_age : ∃ m, (({} : Assembler).assemble litterRequest).result = .ok m ∧
    m.Source ⟨.var, "age"⟩ 2 (.declared 1) ∧ m.blockLines 2 = ["species cub : agent"] := by
  have ⟨m, h⟩ := Outcome.exists_of_isOk (x := ({} : Assembler).assemble litterRequest) (by rfl)
  have look (i : Nat) : (({} : Assembler).assemble litterRequest).result.toOption.bind (·.get? i) =
      m.get? i := by
    rw [h]
    rfl
  have ⟨d, x, hd, hx, hnone⟩ : ∃ d x, m.get? 1 = some d ∧
      d.members.get? ⟨.var, "age"⟩ = some x ∧ x.inheritedFrom = none := by
    rw [← look]
    exact ⟨_, _, rfl, rfl, rfl⟩
  have ⟨e, y, he, hy, hfrom, hparent⟩ : ∃ e y, m.get? 2 = some e ∧
      e.members.get? ⟨.var, "age"⟩ = some y ∧ y.inheritedFrom = some Keyword.agent ∧
      e.parent = some (.declared 1) := by
    rw [← look]
    exact ⟨_, _, rfl, rfl, rfl, rfl⟩
  have hlines : (({} : Assembler).assemble litterRequest).result.toOption.map (·.blockLines 2) =
      some ["species cub : agent"] := by
    decide +kernel
  rw [h] at hlines
  exact ⟨m, h, .inherited ⟨e, y, he, hy, by simp [hfrom], hparent⟩ (.own ⟨d, x, hd, hx, hnone⟩),
    Option.some.inj hlines⟩

end ModelAssembly
