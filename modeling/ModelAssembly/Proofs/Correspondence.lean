import ModelAssembly.Proofs.NamedParents
import ModelAssembly.Proofs.Overrides
import ModelAssembly.Proofs.Profiles
import ModelAssembly.Proofs.Settling
/-!
Linked models in which the same is declared. They may have their descriptions in different orders,
and then the indices in one mean nothing in the other. But where no name is declared twice, it is
the profiles that tell descriptions apart, and what goes by indices in each model goes by profiles
in both.

Main statements: `acyclic_of_asks` says that links lead to no cycle where none is asked for;
`Alike.links` compares parents, `Alike.members` the members in two drafts, by induction on the way
up from a description; `root_of_rearranged` the roots.
-/

open Relation

namespace ModelAssembly

open Description Model

-- The declaration `x` asks for the parent `y`.
def Request.Asks (r : Request) (x y : String) : Prop :=
  ∃ p ∈ r.profiles, p.name = x ∧ p.facets.get? Keyword.parent = some y

namespace Placement

variable {p : Placement} {d : Description} {j : Nat} {b : String}

theorem exists_facet_of_declared (h : p.parentLink d = .declared j) :
    ∃ x, d.facets.get? Keyword.parent = some x := by
  rw [← Option.isSome_iff_exists, Option.isSome_iff_ne_none]
  intro hno
  cases hx : d.isExperiment <;>
    simp [parentLink, hx, speciesParent, experimentParent, hno] at h

-- The parent of a description that extends nothing that is declared.
def fallback (registry : Registry) (d : Description) : String :=
  if d.isExperiment then Keyword.experiment
  else ((d.facets.get? Keyword.parent).filter fun x => (registry.species.get? x).isSome).getD
    Keyword.agent

theorem eq_fallback_of_builtIn (h : p.parentLink d = .builtIn b) :
    b = fallback p.model.registry d := by
  unfold parentLink at h
  unfold fallback
  split at h
  case isTrue hx =>
    rw [if_pos hx]
    simp only [experimentParent] at h
    split at h <;> cases h
    rfl
  case isFalse hx =>
    rw [if_neg hx]
    unfold speciesParent at h
    split at h
    case h_1 hf =>
      cases h
      rw [hf]
      rfl
    case h_2 x hf =>
      split at h
      case h_1 => cases h
      case h_2 =>
        rw [hf, Option.filter_some]
        split at h
        case isTrue hs =>
          cases h
          rw [if_pos hs]
          rfl
        case isFalse hs =>
          cases h
          rw [if_neg hs]
          rfl

end Placement

namespace Assembler.Linking

variable {a : Assembler} {r r' : Request} {l : Linking a r} {l' : Linking a r'} {m m' : Model}
  {i i' j : Nat} {d d' e e' : Description} {p q : Profile}

theorem Bears.ne_rootIndex (h : l.Bears i p) : i ≠ rootIndex :=
  Nat.ne_of_gt (Nat.lt_of_lt_of_le l.base_pos h.1)

theorem Bears.profile_eq (hp : l.Bears i p) (hq : l.Bears i q) : p = q :=
  Option.some.inj (hp.2.symm.trans hq.2)

theorem Bears.shows (h : l.Bears i p) (hd : l.model.get? i = some d) : l.model.Shows d p := by
  have ⟨d', hd', hs, _⟩ := h.exists_shows
  cases hd.symm.trans hd'
  exact hs

theorem Bears.kind_eq (hp : l.Bears i p) (hp' : l'.Bears i' p) (hd : l.model.get? i = some d)
    (hd' : l'.model.get? i' = some d') : d'.kind = d.kind :=
  Option.some.inj ((hp'.shows hd').kind.symm.trans (hp.shows hd).kind)

theorem Bears.facets_eq (hp : l.Bears i p) (hp' : l'.Bears i' p) (hd : l.model.get? i = some d)
    (hd' : l'.model.get? i' = some d') : d'.facets = d.facets :=
  (hp'.shows hd').facets.trans (hp.shows hd).facets.symm

-- Own descriptions other than the root bear the profile under their name.
theorem exists_bears_of_isOwn (h0 : i ≠ rootIndex) (hd : l.model.get? i = some d)
    (ho : d.isOwn = true) : ∃ p, l.Bears i p ∧ p.name = d.name := by
  have hi := (l.isOwn_iff (Nat.pos_of_ne_zero h0) hd).mp ho
  have ⟨p, hp⟩ := l.exists_bears hi (lt_size_of_get? hd)
  exact ⟨p, hp, (hp.shows hd).name.symm⟩

-- A declared parent is the one that was asked for.
theorem Bears.exists_asked (h : l.Bears i p) (hd : l.model.get? i = some d)
    (hj : d.parent = some (.declared j)) :
    ∃ q, l.Bears j q ∧ p.facets.get? Keyword.parent = some q.name := by
  have ⟨_, hlink⟩ := l.fresh_of_le h.1 hd
  have ⟨x, hf⟩ := Placement.exists_facet_of_declared (Option.some.inj (hlink.symm.trans hj))
  have ⟨⟨⟨h0, e, he, hname, ho⟩, _⟩, _⟩ := (l.parent_eq_declared_iff hd h.1 hf).mp hj
  have ⟨q, hq, hqname⟩ := exists_bears_of_isOwn h0 he ho
  refine ⟨q, hq, ?_⟩
  rw [← (h.shows hd).facets, hf, hqname, hname]

section

variable (hn : (r.profiles.map (·.name)).Nodup)

include hn

-- Nothing else goes by the name of a declaration.
theorem Bears.bearers_eq (h : l.Bears i p) : l.model.bearers p.name (·.isOwn) = {i} := by
  ext k
  constructor
  case mp =>
    intro ⟨h0, d, hd, hname, ho⟩
    have ⟨q, hq, hqname⟩ := exists_bears_of_isOwn h0 hd ho
    exact (hq.unique hn h (hqname.trans hname)).1
  case mpr =>
    intro hk
    cases hk
    have ⟨d, hd, hs, _⟩ := h.exists_shows
    exact ⟨h.ne_rootIndex, d, hd, hs.name, hs.isOwn⟩

theorem exists_asked_of_kinParent {kind : DescriptionKind}
    (hk : l.model.kinParent kind i = some j) :
    ∃ p q, l.Bears i p ∧ l.Bears j q ∧ r.Asks p.name q.name := by
  have ⟨d, e, hd, _, ho, hj, _⟩ := kinParent_eq_some_iff.mp hk
  have h0 : i ≠ rootIndex := by
    intro h0
    rw [h0, get?_rootIndex, l.root_model] at hd
    cases hd
    cases hj
  have ⟨p, hp, _⟩ := exists_bears_of_isOwn h0 hd ho
  have ⟨q, hq, hf⟩ := hp.exists_asked hd hj
  exact ⟨p, q, hp, hq, p, (l.exists_of_mem_profiles hn).mpr ⟨i, hp⟩, rfl, hf⟩

-- Where nothing asks for itself, not even by way of others, links lead to no cycle.
theorem acyclic_of_asks (hc : ∀ x, ¬ TransGen r.Asks x x) (kind : DescriptionKind) (i : Nat) :
    ¬ TransGen (Leads (l.model.kinParent kind)) i i := by
  have hall {j : Nat} (h : TransGen (Leads (l.model.kinParent kind)) i j) :
      ∃ p q, l.Bears i p ∧ l.Bears j q ∧ TransGen r.Asks p.name q.name := by
    induction h
    case single hk =>
      have ⟨p, q, hp, hq, ha⟩ := exists_asked_of_kinParent hn hk
      exact ⟨p, q, hp, hq, .single ha⟩
    case tail hk hi =>
      have ⟨p, q, hp, hq, ha⟩ := hi
      have ⟨q', s, hq', hs, ha'⟩ := exists_asked_of_kinParent hn hk
      cases hq.profile_eq hq'
      exact ⟨p, s, hp, hs, ha.tail ha'⟩
  intro h
  have ⟨p, q, hp, hq, ha⟩ := hall h
  cases hp.profile_eq hq
  exact hc _ ha

end

-- The same is declared for both models, and no name twice.
structure Alike (l : Linking a r) (l' : Linking a r') : Prop where
  nodup : (r.profiles.map (·.name)).Nodup
  perm : r'.profiles.Perm r.profiles

-- Both links lead to the same built-in description, or to descriptions with the same profile.
inductive SameLink (l : Linking a r) (l' : Linking a r') : ParentLink → ParentLink → Prop
  | builtIn (b : String) : SameLink l l' (.builtIn b) (.builtIn b)
  | declared {j j' : Nat} {q : Profile} :
    l.Bears j q → l'.Bears j' q → SameLink l l' (.declared j) (.declared j')

namespace Alike

variable (h : l.Alike l')

include h

theorem nodup' : (r'.profiles.map (·.name)).Nodup := (h.perm.map _).nodup_iff.mpr h.nodup

theorem symm : l'.Alike l := ⟨h.nodup', h.perm.symm⟩

theorem exists_bears (hp : l.Bears i p) : ∃ i', l'.Bears i' p := by
  have hm := (l.exists_of_mem_profiles h.nodup).mpr ⟨i, hp⟩
  exact (l'.exists_of_mem_profiles h.nodup').mp (h.perm.mem_iff.mpr hm)

variable (hp : l.Bears i p) (hp' : l'.Bears i' p)

include hp hp'

section

variable (hd : l.model.get? i = some d) (hd' : l'.model.get? i' = some d')

include hd hd'

theorem exists_declared (hj : d.parent = some (.declared j)) :
    ∃ j' q, l.Bears j q ∧ l'.Bears j' q ∧ d'.parent = some (.declared j') := by
  have ⟨q, hq, hf⟩ := hp.exists_asked hd hj
  have ⟨j', hq'⟩ := h.exists_bears hq
  refine ⟨j', q, hq, hq', ?_⟩
  rw [l'.parent_eq_declared_iff hd' hp'.1 ((hp'.shows hd').facets ▸ hf), hq'.bearers_eq h.nodup']
  refine ⟨isGreatest_singleton, fun hk => ?_⟩
  have ⟨_, hkind⟩ := (l.parent_eq_declared_iff hd hp.1 ((hp.shows hd).facets ▸ hf)).mp hj
  have ⟨e, he, hke⟩ := hkind (hp.kind_eq hp' hd hd' ▸ hk)
  have ⟨e', he', _⟩ := hq'.exists_shows
  exact ⟨e', he', (hq.kind_eq hq' he he').trans hke⟩

-- Descriptions with the same profile have the same parent.
theorem links : ∃ link link', d.parent = some link ∧ d'.parent = some link' ∧
    l.SameLink l' link link' := by
  have ⟨_, hlink⟩ := l.fresh_of_le hp.1 hd
  have ⟨_, hlink'⟩ := l'.fresh_of_le hp'.1 hd'
  cases hl : l.placement.parentLink d
  case declared j =>
    have hj := hlink.trans (congrArg some hl)
    have ⟨j', q, hq, hq', hj'⟩ := h.exists_declared hp hp' hd hd' hj
    exact ⟨_, _, hj, hj', .declared hq hq'⟩
  case builtIn b =>
    have hb := hlink.trans (congrArg some hl)
    cases hl' : l'.placement.parentLink d'
    case declared j' =>
      have ⟨j, _, _, _, hj⟩ :=
        h.symm.exists_declared hp' hp hd' hd (hlink'.trans (congrArg some hl'))
      cases hb.symm.trans hj
    case builtIn b' =>
      have he : b' = b := by
        rw [Placement.eq_fallback_of_builtIn hl, Placement.eq_fallback_of_builtIn hl',
          Placement.fallback, Placement.fallback, l.registry_placement, l'.registry_placement,
          isExperiment, isExperiment, hp.kind_eq hp' hd hd', hp.facets_eq hp' hd hd']
      subst he
      exact ⟨_, _, hb, hlink'.trans (congrArg some hl'), .builtIn b'⟩

end

section

variable (hm : l.Settled m) (hm' : l'.Settled m')

include hm hm'

-- Descriptions with the same profile come to the same members in both drafts: so do their parents,
-- which come first in the order of `rank`, unless they are of another kind.
theorem members (he : m.get? i = some e) (he' : m'.get? i' = some e') : e'.members = e.members := by
  obtain ⟨rank, hrank⟩ := hm.rank
  induction hk : rank i using Nat.strongRecOn generalizing i i' p e e'
  case ind k ih =>
    obtain ⟨d, hd, hs, hown⟩ := hp.exists_shows
    obtain ⟨d', hd', hs', hown'⟩ := hp'.exists_shows
    obtain ⟨x, hx, _, _, hmembers⟩ := hm.placed i d hp.1 hd
    obtain ⟨x', hx', _, _, hmembers'⟩ := hm'.placed i' d' hp'.1 hd'
    cases he.symm.trans hx
    cases he'.symm.trans hx'
    rw [hmembers, hmembers']
    refine members_mergedWith_congr ?own ?source
    case own =>
      rw [withMembers, withMembers, (l.fresh_of_le hp.1 hd).1.members,
        (l'.fresh_of_le hp'.1 hd').1.members, hown, hown']
    case source =>
      obtain ⟨link, link', hl, hl', hlinks⟩ := h.links hp hp' hd hd'
      unfold source
      rw [hl, hl']
      cases hlinks
      case builtIn => rfl
      case declared j j' q hq hq' =>
        obtain ⟨f, hf, hfs, hfown⟩ := hq.exists_shows
        obtain ⟨f', hf', hfs', hfown'⟩ := hq'.exists_shows
        obtain ⟨y, hy, hyb, _⟩ := hm.placed j f hq.1 hf
        obtain ⟨y', hy', hyb', _⟩ := hm'.placed j' f' hq'.1 hf'
        have hname : f'.name = f.name := hfs'.name.trans hfs.name.symm
        simp only [hf, hf', Option.any_some, hp.kind_eq hp' hd hd', hq.kind_eq hq' hf hf', hy, hy',
          get?_complemented hq.1 hf, get?_complemented hq'.1 hf']
        split
        case isTrue hsame =>
          have hlt : rank j < k :=
            hk ▸ hrank i j d hp.1 hd hl (by rw [hf]; exact hsame)
          have hmem := ih (rank j) hlt hq hq' hy hy' rfl
          simp [hmem, name_of_bare hyb, name_of_bare hyb', hname]
        case isFalse =>
          simp [withMembers, (l.fresh_of_le hq.1 hf).1.members,
            (l'.fresh_of_le hq'.1 hf').1.members, hfown, hfown', hname]

end
end Alike

theorem parentOf_root_complemented (l : Linking a r) : l.complemented.parentOf rootIndex =
    a.registry.lookup ((((Declarations.ofTrees r.trees).1.facets.get? Keyword.parent).filter
      fun x => (a.registry.models.get? x).isSome).getD Keyword.model) := by
  have hr : l.complemented.registry = a.registry :=
    l.stocked_complemented.registry.trans l.registry_model
  rw [parentOf, get?_rootIndex, l.root_complemented, l.root_model]
  exact congrArg (Registry.lookup · _) hr

section

variable (hr : r.Rearranged r')

include hr

theorem alike_of_rearranged (l : Linking a r) (l' : Linking a r')
    (hn : (r.profiles.map (·.name)).Nodup) : l.Alike l' :=
  ⟨hn, hr.perm_profiles⟩

theorem primary_of_rearranged (l : Linking a r) (l' : Linking a r') :
    l.primary.Rearranged l'.primary := by
  have ht := hr.trees
  rw [l.trees_eq, l'.trees_eq] at ht
  cases ht
  case cons h _ => exact h

theorem addsScheduler_of_rearranged : a.addsScheduler r' = a.addsScheduler r := by
  rw [addsScheduler, addsScheduler, Element.Rearranged.facets_ofTrees hr.trees]

-- The roots differ in the indices of what they contain.
theorem root_of_rearranged (hm : l.Settled m) (hm' : l'.Settled m') :
    ∃ micro, m'.root = { m.root with micro } := by
  have hfacets := Element.Rearranged.facets_ofTrees hr.trees
  have hfresh : a.freshRoot l'.primary (Declarations.ofTrees r'.trees).1.facets =
      a.freshRoot l.primary (Declarations.ofTrees r.trees).1.facets := by
    have hp := primary_of_rearranged hr l l'
    rw [freshRoot, freshRoot, hp.modelName, hp.provenance, hfacets]
  have ⟨_, hroot⟩ := hm.root
  have ⟨micro, hroot'⟩ := hm'.root
  refine ⟨micro, ?_⟩
  rw [hroot, hroot', addsScheduler_of_rearranged hr, parentOf_root_complemented,
    parentOf_root_complemented, l.root_complemented, l'.root_complemented, l.root_model,
    l'.root_model, hfresh, hfacets, Element.Rearranged.members_ofTrees hr.trees]
  cases a.registry.lookup _ <;> rfl

end
end Assembler.Linking
end ModelAssembly
