import ModelAssembly.Proofs.Correspondence
import ModelAssembly.Proofs.Explanations
import ModelAssembly.Proofs.OwnerTree
import ModelAssembly.Proofs.Safety
/-!
The order of declarations. Where no name is declared twice and no parent leads back, it does not
matter to an assembly in which order the species, grids and experiments of a scope are declared: it
comes to a model that says the same of each name, or fails for the same kind of reason.

Main statements: `Alike.agrees` for the descriptions of two drafts; `Drafted.judged_validate` for
what validation makes of a draft; `declaration_order_irrelevant` for assemblies.
-/

open Relation

namespace ModelAssembly

open Description

namespace Model

variable {m m' : Model} {i : Nat} {d d' : Description} {x : String} {is : List Nat}

-- The name of the description at `i`.
def nameAt (m : Model) (i : Nat) : Option String := (m.get? i).map (·.name)

theorem nameAt_of_get? (hd : m.get? i = some d) : m.nameAt i = some d.name := by
  rw [nameAt, hd, Option.map_some]

theorem parentTypeName_eq_some_iff : m.parentTypeName d = .ok (some x) ↔
    d.parent = some (.builtIn x) ∨ ∃ j, d.parent = some (.declared j) ∧ m.nameAt j = some x := by
  unfold parentTypeName
  split
  case h_1 h => simp [h]
  case h_2 h => simp [h]
  case h_3 j h =>
    simp only [h, Option.some.injEq, reduceCtorEq, ParentLink.declared.injEq, exists_eq_left',
      false_or]
    rw [bind_eq_ok_iff]
    simp only [get_eq_ok_iff, nameAt, Option.map_eq_some_iff]
    refine exists_congr fun f => and_congr_right fun _ => ?_
    exact ⟨fun h => Option.some.inj (Except.ok.inj h), fun h => h ▸ rfl⟩

-- `x` denotes `d` in `m`: no other description of the model itself goes by the name.
structure Declares (m : Model) (x : String) (i : Nat) (d : Description) : Prop where
  get? : m.get? i = some d
  isOwn : d.isOwn = true
  alone : m.bearers x (·.isOwn) = {i}
  found : m.find? x = some i

-- Searches find the only own description of a name.
theorem declares_of_alone (hd : m.get? i = some d) (hk : d.isModel = false)
    (ha : m.bearers x (·.isOwn) = {i}) : m.Declares x i d := by
  have ⟨h0, e, he, hname, ho⟩ : i ∈ m.bearers x (·.isOwn) := ha ▸ rfl
  cases hd.symm.trans he
  refine ⟨hd, ho, ha, find?_eq_some_iff.mpr (.inl ⟨⟨h0, d, hd, hname, by simp [hk, ho]⟩, ?_⟩)⟩
  intro k ⟨hk0, f, hf, hfname, hp⟩
  have hk : k ∈ m.bearers x (·.isOwn) := ⟨hk0, f, hf, hfname, (Bool.and_eq_true _ _ ▸ hp).2⟩
  rw [ha] at hk
  exact Nat.le_of_eq hk.symm

-- `d` in `m` and `d'` in `m'` say the same, where everything goes by names.
structure Agrees (m m' : Model) (d d' : Description) : Prop where
  kind : d'.kind = d.kind
  declaredAs : d'.declaredAs = d.declaredAs
  facets : d'.facets = d.facets
  isAbstract : d'.isAbstract = d.isAbstract
  parent : ∃ x, m.parentTypeName d = .ok (some x) ∧ m'.parentTypeName d' = .ok (some x)
  owner : ∃ x, d.owner.bind m.nameAt = some x ∧ d'.owner.bind m'.nameAt = some x
  members : d'.members = d.members

-- The roots of `m` and `m'` have the same facets and members, and each of the names denotes
-- descriptions that say the same.
structure Concurs (m m' : Model) (names : List String) : Prop where
  facets : m'.root.facets = m.root.facets
  members : m'.root.members = m.root.members
  declared : ∀ x ∈ names, ∃ i d i' d',
    m.Declares x i d ∧ m'.Declares x i' d' ∧ m.Agrees m' d d'

theorem Agrees.fails_iff (h : m.Agrees m' d d') : d'.Fails ↔ d.Fails := by
  rw [Fails, Fails, h.facets, h.isAbstract, h.members]

theorem exists_closed (is : List Nat) (hd : m.get? i = some d) :
    ∃ b, (m.closeAt is).get? i = some { d with isFinalized := b } := by
  rw [get?_closeAt, hd, Option.map_some]
  split
  case isTrue => exact ⟨true, rfl⟩
  case isFalse => exact ⟨d.isFinalized, rfl⟩

theorem nameAt_closeAt : (m.closeAt is).nameAt i = m.nameAt i := by
  rw [nameAt, get?_closeAt, Option.map_map]
  refine congrArg (Option.map · _) (funext fun d => ?_)
  by_cases hi : i ∈ is <;> simp [hi, close]

theorem bearers_closeAt : (m.closeAt is).bearers x (·.isOwn) = m.bearers x (·.isOwn) := by
  refine Set.ext fun k => and_congr_right fun _ => ?_
  simp only [get?_closeAt, Option.map_eq_some_iff, exists_exists_and_eq_and]
  refine exists_congr fun d => and_congr_right fun _ => ?_
  split <;> rfl

theorem root_closeAt (m : Model) (is : List Nat) :
    ∃ b, (m.closeAt is).root = { m.root with isFinalized := b } := by
  have ⟨b, hroot⟩ := exists_closed is (get?_rootIndex m)
  exact ⟨b, root_eq_iff.mpr hroot⟩

theorem exists_declares_closeAt (is : List Nat) (hd : m.get? i = some d) (hk : d.isModel = false)
    (ha : m.bearers x (·.isOwn) = {i}) :
    ∃ b, (m.closeAt is).Declares x i { d with isFinalized := b } := by
  have ⟨b, hclosed⟩ := exists_closed is hd
  exact ⟨b, declares_of_alone hclosed hk (bearers_closeAt.trans ha)⟩

-- Closing descriptions changes nothing about what they say.
theorem Agrees.closeAt {is' : List Nat} {b b' : Bool} (h : m.Agrees m' d d') :
    (m.closeAt is).Agrees (m'.closeAt is') { d with isFinalized := b }
      { d' with isFinalized := b' } := by
  have ⟨p, hp, hp'⟩ := h.parent
  have ⟨o, ho, ho'⟩ := h.owner
  have hname : (m.closeAt is).nameAt = m.nameAt := funext fun _ => nameAt_closeAt
  have hname' : (m'.closeAt is').nameAt = m'.nameAt := funext fun _ => nameAt_closeAt
  refine ⟨h.kind, h.declaredAs, h.facets, h.isAbstract, ⟨p, ?_, ?_⟩, ⟨o, hname ▸ ho, hname' ▸ ho'⟩,
    h.members⟩
  · rw [parentTypeName_eq_some_iff, hname]
    exact parentTypeName_eq_some_iff.mp hp
  · rw [parentTypeName_eq_some_iff, hname']
    exact parentTypeName_eq_some_iff.mp hp'

end Model

namespace Assembler.Linking

open Model

variable {a : Assembler} {r r' : Request} {l : Linking a r} {l' : Linking a r'} {m m' : Model}
  {i i' : Nat} {e e' : Description} {p : Profile}

section

variable (hx : l.Extended m) (hm : l.Settled m)

include hm

theorem Bears.exists_settled (hp : l.Bears i p) : ∃ d e, l.model.get? i = some d ∧
    m.get? i = some e ∧ l.model.Shows d p ∧ e.bare = d.bare ∧ e.parent = d.parent := by
  have ⟨d, hd, hs, _⟩ := hp.exists_shows
  have ⟨e, he, hb, hparent, _⟩ := hm.placed i d hp.1 hd
  exact ⟨d, e, hd, he, hs, hb, hparent⟩

theorem Bears.isModel_eq (hp : l.Bears i p) (he : m.get? i = some e) : e.isModel = false := by
  have ⟨d, e', hd, he', _, hb, _⟩ := hp.exists_settled hm
  cases he.symm.trans he'
  rw [isModel, kind_of_bare hb]
  cases (l.fresh_of_le hp.1 hd).1.kind <;> simp [*]

include hx

theorem nameAt_settled (hi : i < l.model.size) : m.nameAt i = l.model.nameAt i := by
  have ⟨d, hd⟩ := get?_of_lt_size hi
  rw [nameAt_of_get? hd]
  by_cases h0 : i = rootIndex
  case pos =>
    subst h0
    have ⟨_, hroot⟩ := hm.root
    rw [nameAt_of_get? (get?_rootIndex m), hroot, ← root_eq_iff.mpr hd]
    have hname : (l.complemented.root.mergedWith (l.complemented.parentOf rootIndex)).name =
        l.model.root.name := by
      rw [name_of_bare (bare_mergedWith ..), l.root_complemented]
      rfl
    exact congrArg some hname
  case neg =>
    have ⟨d', e, hd', he, hb, _⟩ := hx.get? i h0 hi
    cases hd.symm.trans hd'
    rw [nameAt_of_get? he, name_of_bare hb]

-- Nothing that a draft adds goes by the name of a declaration, apart from the scheduler.
theorem Bears.alone (hn : (r.profiles.map (·.name)).Nodup) (hs : p.name ≠ Keyword.scheduler)
    (hp : l.Bears i p) : m.bearers p.name (·.isOwn) = {i} := by
  refine Set.eq_singleton_iff_unique_mem.mpr ⟨?self, ?others⟩
  case self =>
    have ⟨_, e, _, he, hshows, hb, _⟩ := hp.exists_settled hm
    exact ⟨hp.ne_rootIndex, e, he, (name_of_bare hb).trans hshows.name,
      (isOwn_of_bare hb).trans hshows.isOwn⟩
  case others =>
    intro k ⟨h0, f, hf, hname, ho⟩
    have hk := (hx.isOwn_iff h0 hf).mp ho
    cases Nat.lt_or_ge k l.model.size
    case inl hlt =>
      have ⟨q, hq⟩ := l.exists_bears hk hlt
      have ⟨_, f', _, hf', hshows, hb, _⟩ := hq.exists_settled hm
      cases hf.symm.trans hf'
      refine (hq.unique hn hp ?_).1
      rw [← hshows.name, ← name_of_bare hb, hname]
    case inr hge => exact absurd (hname.symm.trans (hm.scheduler k f hge hf)) hs

theorem Bears.nameAt_settled (hp : l.Bears i p) : m.nameAt i = some p.name := by
  have ⟨_, hd, hs, _⟩ := hp.exists_shows
  rw [Linking.nameAt_settled hx hm hp.lt_size, nameAt_of_get? hd, hs.name]

end

-- Descriptions of two drafts that have the same profile say the same.
theorem Alike.agrees (h : l.Alike l') (hx : l.Extended m) (hx' : l'.Extended m')
    (hm : l.Settled m) (hm' : l'.Settled m') (hp : l.Bears i p) (hp' : l'.Bears i' p)
    (he : m.get? i = some e) (he' : m'.get? i' = some e') : m.Agrees m' e e' := by
  have ⟨d, f, hd, hf, hs, hb, hparent⟩ := hp.exists_settled hm
  have ⟨d', f', hd', hf', hs', hb', hparent'⟩ := hp'.exists_settled hm'
  cases he.symm.trans hf
  cases he'.symm.trans hf'
  refine ⟨?kind, ?declaredAs, ?facets, ?isAbstract, ?parent, ?owner, h.members hp hp' hm hm' he he'⟩
  case kind => rw [kind_of_bare hb, kind_of_bare hb', hp.kind_eq hp' hd hd']
  case facets => rw [facets_of_bare hb, facets_of_bare hb', hp.facets_eq hp' hd hd']
  case declaredAs =>
    rw [declaredAs_of_bare hb, declaredAs_of_bare hb', hs.declaredAs, hs'.declaredAs]
  case isAbstract =>
    rw [isAbstract_of_bare hb, isAbstract_of_bare hb', hs.isAbstract, hs'.isAbstract]
  case parent =>
    simp only [parentTypeName_eq_some_iff, hparent, hparent']
    have ⟨link, link', hl, hl', hlinks⟩ := h.links hp hp' hd hd'
    cases hlinks
    case builtIn b => exact ⟨b, .inl hl, .inl hl'⟩
    case declared j j' q hq hq' =>
      exact ⟨q.name, .inr ⟨j, hl, hq.nameAt_settled hx hm⟩,
        .inr ⟨j', hl', hq'.nameAt_settled hx' hm'⟩⟩
  case owner =>
    have ⟨x, o, ho, hox, hname⟩ := hs.owner
    have ⟨x', o', ho', hox', hname'⟩ := hs'.owner
    refine ⟨p.owner, ?_, ?_⟩
    · rw [owner_of_bare hb, ho, Option.bind_some, nameAt_settled hx hm (lt_size_of_get? hox),
        nameAt_of_get? hox, hname]
    · rw [owner_of_bare hb', ho', Option.bind_some, nameAt_settled hx' hm' (lt_size_of_get? hox'),
        nameAt_of_get? hox', hname']

end Assembler.Linking

namespace AssemblyError

-- What an error is, whatever it names.
inductive Variant where
  | emptyInput
  | missingPlugins
  | experimentFailed
  | modelFailed
  | graftRefused
  | refused
deriving DecidableEq

def variant : AssemblyError → Variant
  | emptyInput => .emptyInput
  | missingPlugins .. => .missingPlugins
  | experimentFailed _ => .experimentFailed
  | modelFailed _ => .modelFailed
  | graftRefused .. => .graftRefused
  | refused _ => .refused

end AssemblyError

-- What validation makes of the draft `m`.
inductive Model.Judged (m : Model) : Except AssemblyError Model → Prop
  | experimentFailed {x : String} : ¬ Assembler.ExperimentsPass m →
    m.Judged (.error (.experimentFailed x))
  | modelFailed {x : String} : Assembler.ExperimentsPass m → m.root.abstractActions ≠ [] →
    m.Judged (.error (.modelFailed x))
  | passed {is : List Nat} : Assembler.ExperimentsPass m → m.root.abstractActions = [] →
    m.Judged (.ok (m.closeAt is))

-- Drafts with the same flaws fail for the same kind of reason, if they fail.
theorem Model.Judged.similar {m m' : Model} {x x' : Except AssemblyError Model} (hx : m.Judged x)
    (hx' : m'.Judged x') (hp : Assembler.ExperimentsPass m' ↔ Assembler.ExperimentsPass m)
    (ha : m'.root.abstractActions = m.root.abstractActions) :
    (∃ e e', x = .error e ∧ x' = .error e' ∧ e'.variant = e.variant) ∨
      ∃ is is', x = .ok (m.closeAt is) ∧ x' = .ok (m'.closeAt is') := by
  cases hx <;> cases hx'
  case experimentFailed.experimentFailed => exact .inl ⟨_, _, rfl, rfl, rfl⟩
  case modelFailed.modelFailed => exact .inl ⟨_, _, rfl, rfl, rfl⟩
  case passed.passed => exact .inr ⟨_, _, rfl, rfl⟩
  case experimentFailed.modelFailed hno _ hyes _ => exact absurd (hp.mp hyes) hno
  case experimentFailed.passed hno _ hyes _ => exact absurd (hp.mp hyes) hno
  case modelFailed.experimentFailed hyes _ _ hno => exact absurd (hp.mpr hyes) hno
  case passed.experimentFailed hyes _ _ hno => exact absurd (hp.mpr hyes) hno
  case modelFailed.passed hne _ _ hnil => exact absurd (ha.symm.trans hnil) hne
  case passed.modelFailed hnil _ _ hne => exact absurd (ha.trans hnil) hne

namespace Assembler.Linking

open Model

variable {a : Assembler} {r r' : Request} {l : Linking a r} {l' : Linking a r'} {m m' : Model}
  {experiments experiments' : List Nat}

-- Unlike what is reported, the result does not depend on the locks of what is grafted.
theorem Drafted.judged_validate (h : l.Drafted m experiments)
    (hg : ∀ g ∈ r.grafts.entries, g.2.InRange) : m.Judged (validate m experiments).result := by
  by_cases hpass : ExperimentsPass m
  case neg =>
    have ⟨_, _, _, d, _, _, _, _, _, hv⟩ := h.validate_of_failed hpass
    rw [hv]
    exact .experimentFailed hpass
  case pos =>
    have hin := h.extended.inRange (l.inRange_model hg)
    have ⟨ds, he, _⟩ := Model.finalizeAll_eq (m := m) fun i hi => hin.contained.lt_of_mem_walk hi
    rw [h.openProblems_root hg] at he
    rw [validate, forM_judge_of_passed (h.experimentsPass_iff.mp hpass), pure_bind,
      Outcome.bind_of_eq he]
    cases ha : m.root.abstractActions
    case nil => exact .passed hpass ha
    case cons => exact .modelFailed hpass (by simp [ha])

-- Experiments fail in both drafts or in none.
theorem Alike.experimentsPass (h : l.Alike l') (hd : l.Drafted m experiments)
    (hd' : l'.Drafted m' experiments') (hm : l.Settled m) (hm' : l'.Settled m')
    (hpass : ExperimentsPass m) : ExperimentsPass m' := by
  intro i' e' he' hk' ho'
  have hkin := hd'.mem_experiments.mpr (isKin_iff.mpr ⟨e', he', hk', ho'⟩)
  have ⟨hi', hlt'⟩ := l'.placed_of_isKin (by decide) ((hd'.mem i').mp hkin)
  have ⟨p, hp'⟩ := l'.exists_bears hi' hlt'
  have ⟨i, hp⟩ := h.symm.exists_bears hp'
  have ⟨d, e, hld, he, hs, hb, _⟩ := hp.exists_settled hm
  have hagrees := h.agrees hd.extended hd'.extended hm hm' hp hp' he he'
  rw [hagrees.fails_iff]
  exact hpass i e he (hagrees.kind.symm.trans hk') ((isOwn_of_bare hb).trans hs.isOwn)

-- Whatever is closed in them, two drafts concur.
theorem concurs_of_rearranged (hr : r.Rearranged r') (hn : (r.profiles.map (·.name)).Nodup)
    (hs : Keyword.scheduler ∉ r.profiles.map (·.name)) (hx : l.Extended m) (hx' : l'.Extended m')
    (hm : l.Settled m) (hm' : l'.Settled m') (is is' : List Nat) :
    (m.closeAt is).Concurs (m'.closeAt is') (r.profiles.map (·.name)) := by
  have h := alike_of_rearranged hr l l' hn
  have ⟨_, hroot⟩ := root_of_rearranged hr hm hm'
  have ⟨_, hclosed⟩ := root_closeAt m is
  have ⟨_, hclosed'⟩ := root_closeAt m' is'
  refine ⟨by rw [hclosed, hclosed', hroot], by rw [hclosed, hclosed', hroot], fun x hmem => ?_⟩
  have ⟨p, hp, hname⟩ := List.mem_map.mp hmem
  subst hname
  have hno : p.name ≠ Keyword.scheduler := fun hname => hs (hname ▸ hmem)
  have ⟨i, hp⟩ := (l.exists_of_mem_profiles hn).mp hp
  have ⟨i', hp'⟩ := h.exists_bears hp
  have ⟨_, e, _, he, _⟩ := hp.exists_settled hm
  have ⟨_, e', _, he', _⟩ := hp'.exists_settled hm'
  have ⟨_, hd⟩ :=
    exists_declares_closeAt is he (hp.isModel_eq hm he) (hp.alone hx hm hn hno)
  have ⟨_, hd'⟩ :=
    exists_declares_closeAt is' he' (hp'.isModel_eq hm' he') (hp'.alone hx' hm' h.nodup' hno)
  exact ⟨i, _, i', _, hd, hd', (h.agrees hx hx' hm hm' hp hp' he he').closeAt⟩

-- Nothing but validation can fail once all plugins are there and all grafts are finalized.
theorem exists_settled_draft {primary : Element} {imports : List Element}
    (ht : r.trees = primary :: imports) (hp : a.settings.missingPlugins primary = [])
    (hg : ∀ g ∈ r.grafts.entries, g.2.InRange)
    (hf : ∀ g ∈ r.grafts.entries, g.2.root.isFinalized = true)
    (hn : (r.profiles.map (·.name)).Nodup) (hc : ∀ x, ¬ TransGen r.Asks x x) :
    ∃ (l : Linking a r) (m : Model) (experiments : List Nat), l.Drafted m experiments ∧
      l.Settled m ∧ m.Judged (a.assemble r).result := by
  have ⟨l, m, experiments, reports, he, hd⟩ := exists_draft ht hp hg hf
  refine ⟨l, m, experiments, hd, ?_, ?_⟩
  · exact l.exists_settled (l.inRange_model hg) (acyclic_of_asks hn hc) (by rw [he])
  · rw [assemble_eq_draft hg, Outcome.bind_of_eq he]
    exact hd.judged_validate hg

end Assembler.Linking

open Assembler

theorem Request.Rearranged.asks_eq {r r' : Request} (h : r.Rearranged r') : r'.Asks = r.Asks := by
  funext x y
  simp only [Request.Asks, h.perm_profiles.mem_iff]

-- However the declarations are arranged, both assemblies fail, for the same kind of reason, or come
-- to models that concur in all that is declared. The parents that grafts name are in range. Others
-- make building the types abort, or come to be the declaration that is placed at their index, which
-- depends on the arrangement.
theorem declaration_order_irrelevant (a : Assembler) {r r' : Request} (hr : r.Rearranged r')
    (hn : (r.profiles.map (·.name)).Nodup) (hs : Keyword.scheduler ∉ r.profiles.map (·.name))
    (hc : ∀ x, ¬ TransGen r.Asks x x) (hg : ∀ g ∈ r.grafts.entries, g.2.InRange) :
    (∃ e e', (a.assemble r).result = .error e ∧ (a.assemble r').result = .error e' ∧
      e'.variant = e.variant) ∨
    ∃ m m', (a.assemble r).result = .ok m ∧ (a.assemble r').result = .ok m' ∧
      m.Concurs m' (r.profiles.map (·.name)) := by
  have htrees := hr.trees
  have hgrafts : r'.grafts = r.grafts := by rw [hr.rest]
  cases ht : r.trees
  case nil =>
    have ht' : r'.trees = [] := List.forall₂_nil_left_iff.mp (ht ▸ htrees)
    exact .inl ⟨.emptyInput, .emptyInput, by rw [assemble, ht]; rfl, by rw [assemble, ht']; rfl, rfl⟩
  case cons primary imports =>
    obtain ⟨primary', imports', hp, _, ht'⟩ := List.forall₂_cons_left_iff.mp (ht ▸ htrees)
    have hplugins : a.settings.missingPlugins primary' = a.settings.missingPlugins primary := by
      rw [AssemblySettings.missingPlugins, AssemblySettings.missingPlugins, hp.pragmas]
    -- What fails before there is a draft does not look at declarations.
    by_cases hmet : a.settings.missingPlugins primary = []
    case neg =>
      obtain ⟨⟨_, _, he⟩, _⟩ := exists_error_of_missingPlugins ht hmet
      obtain ⟨⟨_, _, he'⟩, _⟩ := exists_error_of_missingPlugins ht' (hplugins ▸ hmet)
      exact .inl ⟨_, _, he, he', rfl⟩
    case pos =>
      by_cases hf : ∀ g ∈ r.grafts.entries, g.2.root.isFinalized = true
      case neg =>
        obtain ⟨_, _, _, he⟩ := exists_error_of_open_graft ht hmet hf
        obtain ⟨_, _, _, he'⟩ := exists_error_of_open_graft ht' (hplugins ▸ hmet) (hgrafts ▸ hf)
        exact .inl ⟨_, _, he, he', rfl⟩
      case pos =>
        obtain ⟨l, m, _, hd, hm, hj⟩ := Linking.exists_settled_draft ht hmet hg hf hn hc
        have hn' := (hr.perm_profiles.map Profile.name).nodup_iff.mpr hn
        obtain ⟨l', m', _, hd', hm', hj'⟩ := Linking.exists_settled_draft ht' (hplugins ▸ hmet)
          (hgrafts ▸ hg) (hgrafts ▸ hf) hn' (hr.asks_eq ▸ hc)
        have hl := Linking.alike_of_rearranged hr l l' hn
        obtain ⟨_, hroot⟩ := Linking.root_of_rearranged hr hm hm'
        have hactions : m'.root.abstractActions = m.root.abstractActions := by
          rw [hroot]
          rfl
        cases hj.similar hj' ⟨hl.symm.experimentsPass hd' hd hm' hm,
          hl.experimentsPass hd hd' hm hm'⟩ hactions
        case inl h => exact .inl h
        case inr h =>
          obtain ⟨is, is', he, he'⟩ := h
          exact .inr ⟨_, _, he, he', Linking.concurs_of_rearranged hr hn hs hd.extended hd'.extended
            hm hm' is is'⟩

-- No cycle is asked for where each declaration asks for one of a higher rank.
theorem Request.not_asks_self_of_rank {r : Request} (rank : String → Nat)
    (h : ∀ p ∈ r.profiles, ∀ y ∈ p.facets.get? Keyword.parent, rank p.name < rank y)
    (x : String) : ¬ TransGen r.Asks x x := by
  have hall {x y : String} (h : TransGen r.Asks x y) : rank x < rank y := by
    induction h
    case single ha =>
      have ⟨p, hp, hname, hf⟩ := ha
      exact hname ▸ h p hp _ hf
    case tail ha hi =>
      have ⟨p, hp, hname, hf⟩ := ha
      exact Nat.lt_trans hi (hname ▸ h p hp _ hf)
  exact fun hx => absurd (hall hx) (Nat.lt_irrefl _)

-- A finalized model with a wolf of its own.
def reserve : Model where
  descriptions := [
    { Description.new .model .model "reserve" ∅ with micro := [1], isFinalized := true },
    { Description.new .species .species "wolf" ∅ with owner := some 0, isFinalized := true }]
  nonempty := by simp
  registry := .defaults

def wolf (nested : List Element) : Element where
  kind := .species
  name := some "wolf"
  facets := .ofList [("parent", "animal")]
  children := { kind := .member .var, name := some "age" } :: nested

def cub : Element := { kind := .species, name := some "cub", facets := .ofList [("parent", "wolf")] }

def lair : Element := { kind := .grid, name := some "lair" }

def animal : Element where
  kind := .species
  name := some "animal"
  children := [{ kind := .member .action, name := some "hunt" }]

def trial (name parent : String) : Element where
  kind := .experiment
  name := some name
  facets := .ofList [("parent", parent)]
  children := [{ kind := .member .parameter, name := some name }]

def heath (declared : List Element) : Element where
  kind := .model
  name := some "heath"
  facets := .ofList [("schedules", "animal")]
  children := { kind := .member .var, name := some "season" } :: declared

def heathRequest (declared : List Element) : Request where
  primary := "heath"
  trees := [heath declared]
  grafts := .ofList [("reserve", reserve)]

def wild : List Element := [wolf [cub, lair], animal, trial "long" "short", trial "short" "none"]

def tame : List Element := [trial "short" "none", trial "long" "short", animal, wolf [lair, cub]]

theorem rearranged_heath : (heathRequest wild).Rearranged (heathRequest tame) := by
  refine ⟨.cons ?_ .nil, rfl⟩
  have hwolf : (wolf [cub, lair]).Rearranged (wolf [lair, cub]) := .children (.swap _ _ _) rfl
  have hsplit : (heath wild).children = [{ kind := .member .var, name := some "season" }] ++
      wolf [cub, lair] :: [animal, trial "long" "short", trial "short" "none"] := rfl
  have htop : tame.Perm [wolf [lair, cub], animal, trial "long" "short", trial "short" "none"] :=
    List.reverse_perm [wolf [lair, cub], animal, trial "long" "short", trial "short" "none"]
  exact .trans (.nested hsplit rfl hwolf) (.children htop rfl)

theorem inRange_reserve : reserve.InRange := by
  constructor
  case micro =>
    intro i j hj
    rcases i with _ | _ | i
    · simp_all [Model.microOf, reserve, Model.get?, Model.size]
    · simp [Model.microOf, reserve, Model.get?, Description.new] at hj
    · simp [Model.microOf, reserve, Model.get?] at hj
  case parent =>
    rintro i j ⟨d, hd, hp⟩
    rcases i with _ | _ | i
    · cases hd; cases hp
    · cases hd; cases hp
    · simp [reserve, Model.get?] at hd

theorem declaration_order_irrelevant_on_heath :
    (heathRequest wild).Rearranged (heathRequest tame) ∧
    ((heathRequest wild).profiles.map (·.name)).Nodup ∧
    Keyword.scheduler ∉ (heathRequest wild).profiles.map (·.name) ∧
    (∀ x, ¬ TransGen (heathRequest wild).Asks x x) ∧
    (∀ g ∈ (heathRequest wild).grafts.entries, g.2.InRange) ∧
    ∃ m m', (({} : Assembler).assemble (heathRequest wild)).result = .ok m ∧
      (({} : Assembler).assemble (heathRequest tame)).result = .ok m' ∧
      m.find? "cub" = some 4 ∧ m'.find? "cub" = some 5 ∧
      m.Concurs m' ["wolf", "cub", "lair", "animal", "long", "short"] := by
  have hn : ((heathRequest wild).profiles.map (·.name)).Nodup := by decide +kernel
  have hs : Keyword.scheduler ∉ (heathRequest wild).profiles.map (·.name) := by decide +kernel
  have hc : ∀ x, ¬ TransGen (heathRequest wild).Asks x x :=
    Request.not_asks_self_of_rank (["cub", "wolf", "animal", "long", "short"].idxOf ·)
      (by decide +kernel)
  have hg : ∀ g ∈ (heathRequest wild).grafts.entries, g.2.InRange := by
    intro g hg
    cases hg
    case head => exact inRange_reserve
    case tail h => cases h
  have hfound (declared : List Element) (k : Nat) (h : (({} : Assembler).assemble
      (heathRequest declared)).result.toOption.any (·.find? "cub" = some k) = true) :
      ∃ m, (({} : Assembler).assemble (heathRequest declared)).result = .ok m ∧
        m.find? "cub" = some k := by
    have ⟨m, hm, hk⟩ := (Option.any_eq_true _ _).mp h
    exact ⟨m, toOption_eq_some_iff.mp hm, of_decide_eq_true hk⟩
  have ⟨m, hm, hk⟩ := hfound wild 4 (by decide +kernel)
  have ⟨m', hm', hk'⟩ := hfound tame 5 (by decide +kernel)
  refine ⟨rearranged_heath, hn, hs, hc, hg, m, m', hm, hm', hk, hk', ?_⟩
  cases declaration_order_irrelevant {} rearranged_heath hn hs hc hg
  case inl h =>
    have ⟨_, _, he, _⟩ := h
    cases hm.symm.trans he
  case inr h =>
    have ⟨_, _, he, he', hall⟩ := h
    cases hm.symm.trans he
    cases hm'.symm.trans he'
    exact hall

end ModelAssembly
