import ModelAssembly.Proofs.Run
import ModelAssembly.Proofs.Reports
import ModelAssembly.Proofs.Validation
/-!
Drafts: an assembly with its validation put off. The draft of a model has all its members, its
scheduler and its types; the experiments are closed, whatever is wrong with them, and all other own
descriptions are still open.

Main statements: `exists_drafted` says that a linked model is drafted without fail, and what the
draft has at an index; `assemble_eq_draft` that to assemble is to draft and then to validate.
-/

namespace ModelAssembly

open Description

namespace Model

variable {m n : Model} {i : Nat} {d d' e : Description} {kind : DescriptionKind} {order : List Nat}

-- `d'` is `d` but for members, and for a link that was cut.
def Kept (d d' : Description) : Prop := SameKin d d' ∧ d'.isFinalized = d.isFinalized

theorem Kept.trans (h₁ : Kept d d') (h₂ : Kept d' e) : Kept d e :=
  ⟨h₁.1.trans h₂.1, h₂.2.trans h₁.2⟩

theorem Changed.kept_trans {k : Model} (h₁ : Changed Kept m n) (h₂ : Changed Kept n k) :
    Changed Kept m k :=
  h₁.trans (fun _ _ _ => .trans) h₂

theorem kept_mergedWith (d : Description) (p : Option Description) : Kept d (d.mergedWith p) :=
  ⟨⟨bare_mergedWith d p, .inl (by cases p <;> rfl)⟩, isFinalized_mergedWith d p⟩

theorem changed_alter {R : Description → Description → Prop} {f : Description → Description}
    (hr : ∀ d, R d d) (hf : ∀ d, R d (f d)) : Changed R m (m.alter i f) := by
  refine ⟨_, rfl, fun j d _ => ?_⟩
  split
  case isTrue => exact hf d
  case isFalse => exact hr d

theorem changed_mergeAt (m : Model) (i : Nat) : Changed Kept m (m.mergeAt i) :=
  changed_alter (fun d => kept_mergedWith d none) fun d => kept_mergedWith d _

theorem changed_kept_cut (m : Model) (kind : DescriptionKind) (cuts : List Nat) :
    Changed Kept m (m.cut kind cuts) := by
  refine ⟨_, rfl, fun i d _ => ?_⟩
  by_cases hi : i ∈ cuts
  case pos => simp [Kept, SameKin, hi, bare]
  case neg => simp [Kept, SameKin, hi]

theorem changed_foldl_mergeAt : Changed Kept m (order.foldl mergeAt m) := by
  induction order generalizing m
  case nil => exact .refl (fun d => kept_mergedWith d none) m
  case cons i order hi => exact (changed_mergeAt m i).kept_trans hi

theorem changed_closeAt (m : Model) (is : List Nat) : Changed SameKin m (m.closeAt is) := by
  refine ⟨_, rfl, fun i d _ => ?_⟩
  split <;> exact ⟨rfl, .inl rfl⟩

theorem changed_foldl_settleAt : Changed SameKin m (order.foldl settleAt m) := by
  have hmerged : Changed Kept m (order.foldl mergeAt m) := changed_foldl_mergeAt
  rw [foldl_settleAt_eq]
  exact (hmerged.mono fun _ _ h => h.1).trans (fun _ _ _ => .trans) (changed_closeAt _ order)

-- What is settled is closed.
theorem isFinalized_foldl_settleAt (hi : i ∈ order) (hd : m.get? i = some d) :
    ∃ e, (order.foldl settleAt m).get? i = some e ∧ e.isFinalized = true := by
  have hmerged : Changed Kept m (order.foldl mergeAt m) := changed_foldl_mergeAt
  have ⟨e, he, _⟩ := hmerged.get? hd
  refine ⟨e.close, ?_, rfl⟩
  rw [foldl_settleAt_eq, get?_closeAt, he, Option.map_some, if_pos hi]

theorem foldlM_inherit (ho : ∀ i ∈ order, ∃ d, m.get? i = some d ∧ d.isFinalized = false) :
    order.foldlM (·.inherit ·) m = .ok (order.foldl mergeAt m) := by
  induction order generalizing m
  case nil => rfl
  case cons i order hi =>
    have ⟨d, hd, hdo⟩ := ho i List.mem_cons_self
    have hopen (j) (hj : j ∈ order) :
        ∃ e, (m.mergeAt i).get? j = some e ∧ e.isFinalized = false := by
      have ⟨e, he, heo⟩ := ho j (List.mem_cons_of_mem i hj)
      have ⟨e', he', hk⟩ := (changed_mergeAt m i).get? he
      exact ⟨e', he', hk.2.trans heo⟩
    rw [List.foldlM_cons, inherit_eq hd hdo]
    exact hi hopen

-- The scheduler can be added while the root is open.
theorem exists_addScheduler (ho : m.root.isFinalized = false) : ∃ n, m.addScheduler = .ok n := by
  unfold addScheduler
  cases m.hasSchedule
  case false => exact ⟨m, rfl⟩
  case true =>
    obtain ⟨⟨n, s⟩, he, hn, hs⟩ := exists_foldlM_eq_ok (f := relocate) (l := relocated)
      (s := (m, m.emptyScheduler))
      (P := fun x => x.1.root.isFinalized = false ∧ x.2.isFinalized = false) ⟨ho, rfl⟩ (by
        rintro ⟨n, s⟩ ⟨hn, hs⟩ facet _
        simp only [relocate]
        split
        case h_1 => exact ⟨_, rfl, hn, hs⟩
        case h_2 expression _ =>
          have hm : n.modify rootIndex (·.removeFacet facet) =
              .ok (n.alter rootIndex fun d => { d with facets := d.facets.erase facet }) :=
            modify_edit (get?_rootIndex n) hn _
          rw [hm, setFacet, edit_of_open hs]
          refine ⟨_, rfl, ?_, hs⟩
          rw [alter, root_mapDescriptions]
          exact hn)
    have hadd (d : Description) : ∃ n', n.add rootIndex d = .ok n' :=
      ⟨_, add_eq (get?_rootIndex n) hn d⟩
    have hin := inheritMembers_of_open hs
    simp only [if_true, he, bind, Except.bind]
    cases n.registry.species.get? Keyword.agent
    case none => exact hadd s
    case some p =>
      simp only [hin p]
      exact hadd _

theorem exists_get_eq_ok {i : Nat} (hi : i < m.size) : ∃ d, m.get i = .ok d := by
  obtain ⟨d, hd⟩ := get?_of_lt_size hi
  exact ⟨d, get_eq_ok_iff.mpr hd⟩

-- Descriptions have types while their parents lie within the model.
theorem exists_declaredTypes_eq_ok (hp : ∀ i j, m.Extends i j → j < m.size) :
    ∃ t, m.declaredTypes = .ok t := by
  obtain ⟨t, ht, _⟩ : ∃ t, m.declaredTypes = .ok t ∧ True := by
    refine exists_foldlM_eq_ok trivial fun t _ x hx => ?_
    obtain ⟨d, i⟩ := x
    have hd : m.get? i = some d :=
      List.mem_zipIdx_iff_getElem?.mp (List.mem_of_mem_drop hx)
    obtain ⟨parent, hpar⟩ : ∃ parent, m.parentTypeName d = .ok parent := by
      unfold parentTypeName
      split
      case h_1 => exact ⟨none, rfl⟩
      case h_2 name _ => exact ⟨some name, rfl⟩
      case h_3 j hj =>
        obtain ⟨e, he⟩ := exists_get_eq_ok (hp i j ⟨d, hd, hj⟩)
        exact ⟨some e.name, by rw [he]; rfl⟩
    by_cases hs : m.shadows t d = true
    case pos => exact ⟨t, by simp [hs], trivial⟩
    case neg =>
      refine ⟨t.insert ⟨d.name, i, parent⟩, ?_, trivial⟩
      simp only [hs, hpar]
      rfl
  exact ⟨t, ht⟩

-- The types can be built while parents and the roots of grafts lie within the model.
theorem exists_buildTypes (hp : ∀ i j, m.Extends i j → j < m.size)
    (hg : ∀ e ∈ m.grafts.entries, e.2 < m.size) :
    ∃ types, m.buildTypes = .ok { m with types } := by
  obtain ⟨declared, hdecl⟩ := exists_declaredTypes_eq_ok hp
  obtain ⟨types, ht, _⟩ : ∃ t, m.grafts.entries.foldlM (fun (t : TypeTable) (x : String × Nat) => do
      return t.addAlias x.1 (← m.get x.2).name) declared = .ok t ∧ True := by
    refine exists_foldlM_eq_ok trivial fun t _ x hx => ?_
    obtain ⟨e, he⟩ := exists_get_eq_ok (hg x hx)
    exact ⟨t.addAlias x.1 e.name, by simp only [he]; rfl, trivial⟩
  refine ⟨types, ?_⟩
  rw [buildTypes, hdecl]
  change (do
    let types ← m.grafts.entries.foldlM (fun (t : TypeTable) (x : String × Nat) => do
      return t.addAlias x.1 (← m.get x.2).name) declared
    return { m with types }) = _
  rw [ht]
  rfl

end Model

namespace Assembler

-- Merges members down the species, and finds the order of the experiments.
def mergeSpecies (m : Model) : Outcome (Model × List Nat) := do
  let m ← .ofModel (m.inherit Model.rootIndex)
  let (m, species) ← m.linearize .species
  let m ← inheritAll m species
  m.linearize .experiment

-- What is linked, with the own members and nothing merged down so far.
def populated (a : Assembler) (r : Request) : Outcome Model :=
  match r.trees with
  | [] => .fail .emptyInput
  | primary :: imports => do
    a.settings.checkPlugins primary
    let (ds, collisions) := Declarations.ofTrees r.trees
    .report collisions
    populate (← .ofModel (a.emptyModel r primary imports ds.facets)) r ds

-- Adds the scheduler and the types.
def finish (a : Assembler) (m : Model) : Outcome Model := do
  let m ← .ofModel (if a.settings.legacyScheduling then m.addScheduler else .ok m)
  .ofModel m.buildTypes

-- The draft of a model, with the experiments in the order in which members are merged down.
def draft (a : Assembler) (r : Request) : Outcome (Model × List Nat) :=
  match r.trees with
  | [] => .fail .emptyInput
  | primary :: imports => do
    a.settings.checkPlugins primary
    let (ds, collisions) := Declarations.ofTrees r.trees
    .report collisions
    let m ← .ofModel (a.emptyModel r primary imports ds.facets)
    let (m, experiments) ← mergeSpecies (← populate m r ds)
    return (← a.finish (experiments.foldl Model.settleAt m), experiments)

-- Judges the experiments of a draft, and finalizes what is still open.
def validate (m : Model) (experiments : List Nat) : Outcome Model := do
  forM experiments m.judge
  let (m, passed) ← m.finalizeAll
  if passed then
    return m
  .fail (.modelFailed m.name)

variable {a : Assembler} {r : Request}

namespace Linking

open Model

variable (l : Linking a r) {kind : DescriptionKind} {n m : Model} {i : Nat} {order : List Nat}

theorem kept_complemented : Changed Kept l.model l.complemented := by
  refine ⟨_, rfl, fun i d _ => ?_⟩
  split
  case isTrue => exact ⟨⟨rfl, .inl rfl⟩, rfl⟩
  case isFalse => split <;> exact ⟨⟨rfl, .inl rfl⟩, rfl⟩

theorem isFinalized_root : l.model.root.isFinalized = false := by
  rw [l.root_model]
  rfl

-- Own descriptions are open as long as only members and links have changed.
theorem exists_open_of_isKin (hc : Changed Kept l.model n) (hi : l.model.isKin kind i = true) :
    ∃ d, n.get? i = some d ∧ d.isFinalized = false ∧ d.kind = kind := by
  have ⟨d, hd, hkind, ho⟩ := isKin_iff.mp hi
  have ⟨e, he, hs, hlock⟩ := hc.get? hd
  have ⟨_, hopen, _⟩ := l.declared_of_isOwn hd ho
  exact ⟨e, he, hlock.trans hopen, (kind_of_bare hs.1).trans hkind⟩

-- Members can be merged down into them.
theorem foldlM_inherit (hc : Changed Kept l.model n)
    (ho : ∀ i ∈ order, l.model.isKin kind i = true) :
    order.foldlM (·.inherit ·) n = .ok (order.foldl mergeAt n) := by
  refine Model.foldlM_inherit fun i hi => ?_
  have ⟨d, hd, hopen, _⟩ := l.exists_open_of_isKin hc (ho i hi)
  exact ⟨d, hd, hopen⟩

theorem inheritAll_eq (hc : Changed Kept l.model n)
    (ho : ∀ i ∈ order, l.model.isKin kind i = true) :
    inheritAll n order = pure (order.foldl mergeAt n) := by
  rw [inheritAll, l.foldlM_inherit hc ho]
  rfl

-- Nothing that is done to species and experiments closes the root.
theorem root_settled (hc : Changed Kept l.model n)
    (hx : ∀ i ∈ order, l.model.isKin .experiment i = true) :
    (order.foldl settleAt n).root = n.root ∧ n.root.isFinalized = false := by
  have hroot : rootIndex ∉ order := by
    intro h
    have ⟨hle, _⟩ := l.placed_of_isKin (by decide) (hx _ h)
    exact Nat.not_lt.mpr hle l.base_pos
  have ⟨d, hd, _, hlock⟩ := hc.get? (get?_rootIndex l.model)
  have hn : n.root = d := root_eq_iff.mpr hd
  exact ⟨root_eq_iff.mpr ((get?_foldl_settleAt hroot).trans (get?_rootIndex n)),
    hn ▸ hlock.trans l.isFinalized_root⟩

theorem linearizable_of_kept (hw : ∀ i ∈ n.walk rootIndex, i < n.size)
    (hc : Changed Kept l.model n) : n.Linearizable kind where
  walk := hw
  kin i d hd _ ho := by
    have ⟨e, he, ⟨hb, hparent⟩, hlock⟩ := hc.get?_rev hd
    have ⟨hbuilt, hopen, hp⟩ := l.declared_of_isOwn he ((isOwn_of_bare hb).symm.trans ho)
    refine ⟨(isBuiltIn_of_bare hb).trans hbuilt, hlock.trans hopen, fun p h => ?_⟩
    cases hparent
    case inl hparent => exact hc.size ▸ hp p (hparent.symm.trans h)
    case inr hparent =>
      have ⟨_, hparent⟩ := hparent
      cases hparent.symm.trans h

theorem walk_of_kept (hin : l.model.InRange) (hc : Changed Kept l.model n) :
    ∀ i ∈ n.walk rootIndex, i < n.size := by
  intro i hi
  rw [walk_of_changed (hc.mono fun _ _ h => h.1)] at hi
  exact hc.size ▸ hin.contained.lt_of_mem_walk hi

theorem exists_linearized (hin : l.model.InRange) (kind : DescriptionKind)
    (hc : Changed Kept l.model n) :
    ∃ n' order reports,
      n.linearize kind = ⟨.ok (n', order), reports⟩ ∧ Changed Kept l.model n' ∧ order.Nodup ∧
        ∀ i, i ∈ order ↔ l.model.isKin kind i = true := by
  have hl : n.Linearizable kind := l.linearizable_of_kept (l.walk_of_kept hin hc) hc
  have ⟨cuts, order, reports, he, _, hx⟩ := linearize_eq hl
  refine ⟨_, order, reports, he, hc.kept_trans (changed_kept_cut n kind cuts), hx.orderNodup, ?_⟩
  exact fun i => l.mem_order_iff (hc.mono fun _ _ h => h.1) hx

theorem exists_mergeSpecies (hin : l.model.InRange) : ∃ n order reports,
    mergeSpecies l.complemented = ⟨.ok (n, order), reports⟩ ∧ Changed Kept l.model n ∧
      order.Nodup ∧ ∀ i, i ∈ order ↔ l.model.isKin .experiment i = true := by
  have ⟨d, hd, hk⟩ := l.kept_complemented.get? (get?_rootIndex l.model)
  have hi := inherit_eq hd (hk.2.trans l.isFinalized_root)
  have h₁ := l.kept_complemented.kept_trans (changed_mergeAt l.complemented rootIndex)
  have ⟨n₂, species, reports₂, he₂, h₂, _, hspecies⟩ := l.exists_linearized hin .species h₁
  have he₃ := l.inheritAll_eq h₂ fun i => (hspecies i).mp
  have h₃ : Changed Kept n₂ (species.foldl mergeAt n₂) := changed_foldl_mergeAt
  have ⟨n, order, reports, he, h₄, hn, horder⟩ :=
    l.exists_linearized hin .experiment (h₂.kept_trans h₃)
  refine ⟨n, order, reports₂ ++ reports, ?_, h₄, hn, horder⟩
  rw [mergeSpecies, hi, Outcome.ofModel_ok, pure_bind, Outcome.bind_of_eq he₂]
  simp only [he₃, pure_bind, he]

-- The draft `m` is `n` with a scheduler, if one is asked for, and with types.
structure Finished (l : Linking a r) (n m : Model) : Prop where
  size : m.size = l.model.size + if a.addsScheduler r then 1 else 0
  root : ∃ facets, m.root = { n.root with
    facets, micro := n.root.micro ++ if a.addsScheduler r then [l.model.size] else [] }
  get? : ∀ i, i ≠ rootIndex → i < l.model.size → m.get? i = n.get? i
  scheduler : a.addsScheduler r = true → ∃ d, m.get? l.model.size = some d ∧
    d.kind = .species ∧ d.isOwn = true ∧ d.isFinalized = false ∧ d.micro = [] ∧
    d.parent = some (.builtIn Keyword.agent)

variable {l}

theorem Finished.of_types (h : l.Finished n m) (types : TypeTable) :
    l.Finished n { m with types } :=
  ⟨h.size, h.root, h.get?, h.scheduler⟩

theorem exists_scheduled (hc : Changed SameKin l.model n) (ho : n.root.isFinalized = false) :
    ∃ m, (if a.settings.legacyScheduling then n.addScheduler else .ok n) = .ok m ∧
      l.Finished n m ∧ m.grafts = n.grafts := by
  obtain ⟨d, hd, hb, _⟩ := hc.get? (get?_rootIndex l.model)
  have hsched : n.hasSchedule = relocated.any (Declarations.ofTrees r.trees).1.facets.contains := by
    rw [hasSchedule, root_eq_iff.mpr hd, facets_of_bare hb, l.root_model]
    rfl
  have hnone (hno : a.addsScheduler r = false) : l.Finished n n :=
    ⟨by simp [hno, hc.size], ⟨n.root.facets, by simp [hno]⟩, fun _ _ _ => rfl, by simp [hno]⟩
  cases hlegacy : a.settings.legacyScheduling
  case false => exact ⟨n, rfl, hnone (by simp [addsScheduler, hlegacy]), rfl⟩
  case true =>
    obtain ⟨m, hm⟩ := exists_addScheduler ho
    refine ⟨m, hm, ?_⟩
    cases addScheduler_eq_ok hm
    case inl hs =>
      rw [hs.2]
      exact ⟨hnone (by simp [addsScheduler, ← hsched, hs.1]), rfl⟩
    case inr hs =>
      obtain ⟨hyes, f, g, agent, _, hm⟩ := hs
      have hyes : a.addsScheduler r = true := by simp [addsScheduler, hlegacy, ← hsched, hyes]
      have hsize : (n.withRootFacets f).size = l.model.size := by
        rw [withRootFacets, size_alter, hc.size]
      subst hm
      refine ⟨⟨?size, ⟨f, ?root⟩, ?get, fun _ => ?scheduler⟩, rfl⟩
      case size => rw [size_grow, hsize, hyes]; rfl
      case root =>
        rw [root_grow, withRootFacets, alter, root_mapDescriptions, hyes, hc.size]
        rfl
      case get =>
        intro i h0 hi
        rw [get?_grow_left _ _ (hsize.symm ▸ hi) h0]
        simp [withRootFacets, h0]
      case scheduler =>
        rw [get?_grow_right _ _ (Nat.le_of_eq hsize), hsize, Nat.sub_self]
        refine ⟨_, rfl, ?_⟩
        cases agent <;> exact ⟨rfl, rfl, rfl, rfl, rfl⟩

theorem Finished.extended (h : l.Finished n m) (hc : Changed SameKin l.model n) : l.Extended m := by
  have ⟨d₀, hd₀, hb₀, hp₀⟩ := hc.get? (get?_rootIndex l.model)
  have hroot : n.root = d₀ := root_eq_iff.mpr hd₀
  have ⟨facets, hr⟩ := h.root
  refine ⟨h.size, ?micro, ?parent, fun i h0 hi => ?_, fun ha => ?_⟩
  case micro => rw [hr, hroot, micro_of_bare hb₀]
  case parent =>
    rw [hr, hroot]
    cases hp₀
    case inl hp =>
      rw [l.root_model] at hp
      exact ⟨_, hp⟩
    case inr hp => exact hp
  · have ⟨d, hd⟩ := get?_of_lt_size hi
    have ⟨e, he, hs⟩ := hc.get? hd
    exact ⟨d, e, hd, (h.get? i h0 hi).trans he, hs⟩
  · have ⟨d, hd, _, ho, _, hmicro, hparent⟩ := h.scheduler ha
    exact ⟨d, hd, ho, hmicro, _, hparent⟩

theorem grafts_model : l.model.grafts = .ofList ((r.grafts.entries.map Prod.fst).zip
    (graftRoots 1 r.grafts.entries)) := by
  have hstart : l.start.grafts = ∅ := by
    have h := l.start_eq
    rw [emptyModel_eq] at h
    exact Except.ok.inj h ▸ rfl
  rw [l.model_eq_map, OrderedMap.ofList_eq_insertAll, ← hstart, ← l.size_start]
  change l.placement.model.grafts = (l.start.withGrafts r.grafts.entries).grafts
  rw [l.model_placement, ← l.grafted_eq_withGrafts]
  rfl

-- Grafts are where the linked model says that they are.
theorem lt_of_mem_grafts {e : String × Nat} (he : e ∈ l.model.grafts.entries) :
    e.2 < l.model.size := by
  have hm := OrderedMap.mem_of_get?_ofList (l.grafts_model ▸ OrderedMap.get?_eq_some_iff.mpr he)
  have ⟨_, hlt⟩ := lt_of_mem_graftRoots (List.of_mem_zip hm).2
  have hb := l.base_eq
  have hs := l.size_model
  omega

theorem exists_finished (hc : Changed SameKin l.model n) (ho : n.root.isFinalized = false)
    (hin : l.model.InRange) : ∃ m, a.finish n = pure m ∧ l.Finished n m := by
  have ⟨m, hm, hf, hg⟩ := exists_scheduled hc ho
  have hgrafts : m.grafts = l.model.grafts := hg.trans hc.grafts
  have hsize := hf.size
  have ⟨types, ht⟩ := exists_buildTypes ((hf.extended hc).inRange hin).parent fun e he => by
    have hlt := lt_of_mem_grafts (hgrafts ▸ he)
    omega
  refine ⟨{ m with types }, ?_, hf.of_types types⟩
  rw [finish, hm, Outcome.ofModel_ok, pure_bind, ht]
  rfl

-- `m` is a draft of the linked model, and `experiments` are closed in it.
structure Drafted (l : Linking a r) (m : Model) (experiments : List Nat) : Prop where
  nodup : experiments.Nodup
  mem : ∀ i, i ∈ experiments ↔ l.model.isKin .experiment i = true
  extended : l.Extended m
  root : m.root.kind = .model ∧ m.root.isOwn = true ∧ m.root.isFinalized = false
  get? : ∀ i, i ≠ rootIndex → i < l.model.size →
    ∃ d e, l.model.get? i = some d ∧ m.get? i = some e ∧ SameKin d e ∧
      (e.isFinalized = true ↔ d.isFinalized = true ∨ i ∈ experiments)
  scheduler : a.addsScheduler r = true → ∃ d, m.get? l.model.size = some d ∧
    d.kind = .species ∧ d.isOwn = true ∧ d.isFinalized = false ∧ d.micro = []

-- Drafting goes through. Judging the experiments while they are merged is judging those of the
-- draft.
theorem exists_drafted (l : Linking a r) (hin : l.model.InRange) :
    ∃ n m experiments reports, mergeSpecies l.complemented = ⟨.ok (n, experiments), reports⟩ ∧
      a.finish (experiments.foldl settleAt n) = pure m ∧ l.Drafted m experiments ∧
      experiments.foldlM concludeExperiment n = (do
        forM experiments m.judge
        return experiments.foldl settleAt n) := by
  have ⟨n, experiments, reports, he, hc, hn, hx⟩ := l.exists_mergeSpecies hin
  have hopen (i) (hi : i ∈ experiments) :
      ∃ d, n.get? i = some d ∧ d.isFinalized = false ∧ d.kind = .experiment :=
    l.exists_open_of_isKin hc ((hx i).mp hi)
  have ⟨hsettled, hopen₀⟩ := l.root_settled hc fun i => (hx i).mp
  have ⟨d₀, hd₀, ⟨hb₀, _⟩, _⟩ := hc.get? (get?_rootIndex l.model)
  have hn₀ : n.root = d₀ := root_eq_iff.mpr hd₀
  have hs : Changed SameKin l.model (experiments.foldl settleAt n) :=
    (hc.mono fun _ _ h => h.1).trans (fun _ _ _ => .trans) changed_foldl_settleAt
  have ⟨m, hm, hf⟩ := exists_finished hs (hsettled ▸ hopen₀) hin
  have ⟨facets, hr⟩ := hf.root
  refine ⟨n, m, experiments, reports, he, hm, ⟨hn, hx, hf.extended hs, ?root, ?get, ?sched⟩,
    ?judge⟩
  case root =>
    rw [hr, hsettled, hn₀]
    refine ⟨?_, ?_, hn₀ ▸ hopen₀⟩
    · exact (kind_of_bare hb₀).trans l.kind_root
    · exact (isOwn_of_bare hb₀).trans (l.root_model ▸ rfl)
  case get =>
    intro i h0 hi
    have ⟨d, hd⟩ := get?_of_lt_size hi
    have ⟨e, hde, hk, hlock⟩ := hc.get? hd
    rw [hf.get? i h0 hi]
    by_cases hmem : i ∈ experiments
    case neg =>
      refine ⟨d, e, hd, (get?_foldl_settleAt hmem).trans hde, hk, ?_⟩
      simp [hmem, hlock]
    case pos =>
      have ⟨e', he', hclosed⟩ := isFinalized_foldl_settleAt hmem hde
      have ⟨d', hd', hk'⟩ := hs.get?_rev he'
      cases hd.symm.trans hd'
      exact ⟨d, e', hd, he', hk', by simp [hmem, hclosed]⟩
  case sched =>
    intro ha
    have ⟨d, hd, hk, ho, hopen, hmicro, _⟩ := hf.scheduler ha
    exact ⟨d, hd, hk, ho, hopen, hmicro⟩
  case judge =>
    rw [foldlM_concludeExperiment hn hopen]
    have hsame (i) (hi : i ∈ experiments) :
        m.get? i = (experiments.foldl settleAt n).get? i := by
      have ⟨hle, hlt⟩ := l.placed_of_isKin (by decide) ((hx i).mp hi)
      exact hf.get? i (Nat.ne_of_gt (Nat.lt_of_lt_of_le l.base_pos hle)) hlt
    rw [← forM_judge_congr hsame]

end Linking

namespace Linking

variable (l : Linking a r) {m : Model}

-- Up to the members there is nothing to report but names that were declared twice in a scope.
theorem populate_eq : populate l.start r (Declarations.ofTrees r.trees).1 = (do
    .report ((Declarations.placed l.declared).flatMap DeclarationTree.duplicates)
    l.model.addOwnMembers (Declarations.ofTrees r.trees).1.members l.placement.nodes) := by
  have hgrafts : r.grafts.entries.foldlM addGraft l.start = pure l.grafted := by
    have hsilent : (r.grafts.entries.foldlM addGraft l.start).All fun _ => False :=
      .foldlM (fun _ _ _ => .of_ofExcept _) _
    exact Outcome.ext l.grafted_eq (List.eq_nil_iff_forall_not_mem.mpr hsilent)
  have hplaced : Placement.ofDeclarations l.grafted (Declarations.ofTrees r.trees).1 =
      ⟨.ok l.placement, (Declarations.placed l.declared).flatMap DeclarationTree.duplicates⟩ := by
    have hopen : l.grafted.root.isFinalized = false := by
      rw [l.grafted_eq_withGrafts, Model.root_withGrafts, l.root_start]
      rfl
    have hall (d : Declaration) (hd : d ∈ (Declarations.ofTrees r.trees).1.all) :
        d.element.isDeclaration = true := Declarations.isDeclaration_of_mem_all hd
    have hreports :
        (Placement.ofDeclarations l.grafted (Declarations.ofTrees r.trees).1).diagnostics =
          (Declarations.placed l.declared).flatMap DeclarationTree.duplicates := by
      rw [Placement.ofDeclarations_eq hall hopen]
      rfl
    exact Outcome.ext l.placement_eq hreports
  rw [populate, hgrafts, pure_bind, Outcome.bind_of_eq hplaced, l.model_eq]
  rfl

theorem result_populate :
    (populate l.start r (Declarations.ofTrees r.trees).1).result = .ok l.complemented := by
  rw [l.populate_eq]
  exact l.result_addOwnMembers

-- Own members are added to what is linked, once the plugins are there.
theorem populated_eq : a.populated r = (do
    a.settings.checkPlugins l.primary
    .report (Declarations.ofTrees r.trees).2
    populate l.start r (Declarations.ofTrees r.trees).1) := by
  have hs := l.start_eq
  have ht := l.trees_eq
  rw [ht] at hs
  simp only [populated, ht, hs, Outcome.ofModel_ok, pure_bind]

theorem eq_complemented (h : (a.populated r).result = .ok m) : m = l.complemented := by
  rw [l.populated_eq] at h
  have ⟨_, _, h⟩ := Outcome.bind_eq_ok_iff.mp h
  have ⟨_, _, h⟩ := Outcome.bind_eq_ok_iff.mp h
  exact Except.ok.inj (h.symm.trans l.result_populate)

end Linking

theorem exists_linking (h : (a.populated r).result = .ok m) :
    ∃ l : Linking a r, m = l.complemented := by
  have h₀ := h
  unfold populated at h
  split at h
  case h_1 => cases h
  case h_2 primary imports ht =>
    have ⟨_, _, h⟩ := Outcome.bind_eq_ok_iff.mp h
    have ⟨_, _, h⟩ := Outcome.bind_eq_ok_iff.mp h
    have ⟨start, hs, h⟩ := Outcome.bind_eq_ok_iff.mp h
    have ⟨grafted, hg, h⟩ := Outcome.bind_eq_ok_iff.mp h
    have ⟨placement, hp, h⟩ := Outcome.bind_eq_ok_iff.mp h
    have ⟨model, hm, _⟩ := Outcome.bind_eq_ok_iff.mp h
    let l : Linking a r :=
      { primary, imports, trees_eq := ht, start
        start_eq := Outcome.ofModel_eq_ok_iff.mp hs
        grafted
        grafted_eq := hg
        placement
        placement_eq := hp
        model
        model_eq := Outcome.ofModel_eq_ok_iff.mp hm }
    exact ⟨l, l.eq_complemented h₀⟩

theorem assemble_eq_populated : a.assemble r = (do
    a.conclude (← mergeDown (← a.populated r))) := by
  rw [assemble, populated]
  cases r.trees
  case nil => rfl
  case cons => simp only [bind_assoc]

theorem draft_eq_populated : a.draft r = (do
    let (m, experiments) ← mergeSpecies (← a.populated r)
    return (← a.finish (experiments.foldl Model.settleAt m), experiments)) := by
  rw [draft, populated]
  cases r.trees
  case nil => rfl
  case cons => simp only [bind_assoc]

-- Once everything is linked, members are merged down and the model is concluded.
theorem Linking.exists_merged (l : Linking a r) (h : (a.assemble r).result = .ok m) :
    ∃ n, (mergeDown l.complemented).result = .ok n ∧ (a.conclude n).result = .ok m := by
  rw [assemble_eq_populated] at h
  have ⟨k, hk, h⟩ := Outcome.bind_eq_ok_iff.mp h
  exact l.eq_complemented hk ▸ Outcome.bind_eq_ok_iff.mp h

theorem mergeDown_eq (m : Model) : mergeDown m = (do
    let (m, experiments) ← mergeSpecies m
    experiments.foldlM concludeExperiment m) := by
  simp only [mergeDown, mergeSpecies, bind_assoc]

theorem conclude_eq (m : Model) : a.conclude m = (do
    let (m, passed) ← (← a.finish m).finalizeAll
    if passed then
      return m
    .fail (.modelFailed m.name)) := by
  simp only [conclude, finish, bind_assoc]

theorem checkPlugins_of_met {s : AssemblySettings} {primary : Element}
    (h : s.missingPlugins primary = []) : s.checkPlugins primary = pure () := by
  rw [AssemblySettings.checkPlugins, h]

theorem result_checkPlugins_of_missing {s : AssemblySettings} {primary : Element}
    (h : s.missingPlugins primary ≠ []) : (s.checkPlugins primary).result =
      .error (.missingPlugins primary.modelName (s.missingPlugins primary)) := by
  unfold AssemblySettings.checkPlugins
  split
  case h_1 hm => exact absurd hm h
  case h_2 => rfl

-- A draft comes of every request for trees that do not want for plugins, if what they graft is
-- finalized.
theorem exists_draft {primary : Element} {imports : List Element}
    (ht : r.trees = primary :: imports) (hp : a.settings.missingPlugins primary = [])
    (hg : ∀ g ∈ r.grafts.entries, g.2.InRange)
    (hf : ∀ g ∈ r.grafts.entries, g.2.root.isFinalized = true) :
    ∃ (l : Linking a r) (m : Model) (experiments : List Nat) (reports : List Diagnostic),
      a.draft r = ⟨.ok (m, experiments), reports⟩ ∧ l.Drafted m experiments := by
  have ⟨l⟩ := nonempty_linking a ht hf
  have ⟨n, m, experiments, reports, he, hm, hd, _⟩ := l.exists_drafted (l.inRange_model hg)
  have hplugins : a.settings.checkPlugins l.primary = pure () := by
    have hprimary := l.trees_eq
    rw [ht] at hprimary
    cases hprimary
    exact checkPlugins_of_met hp
  have hpopulated : (a.populated r).result = .ok l.complemented := by
    rw [l.populated_eq, hplugins, pure_bind, Outcome.report_bind]
    exact l.result_populate
  have hresult : (a.draft r).result = .ok (m, experiments) := by
    rw [draft_eq_populated]
    refine Outcome.bind_eq_ok_iff.mpr ⟨_, hpopulated, ?_⟩
    rw [Outcome.bind_of_eq he]
    simp only [hm]
    rfl
  exact ⟨l, m, experiments, (a.draft r).diagnostics, Outcome.ext hresult rfl, hd⟩

-- Assembling is drafting, and then validating the draft.
theorem assemble_eq_draft (hg : ∀ g ∈ r.grafts.entries, g.2.InRange) : a.assemble r = (do
    let (m, experiments) ← a.draft r
    validate m experiments) := by
  rw [assemble_eq_populated, draft_eq_populated, bind_assoc]
  apply Outcome.bind_congr_of_ok
  intro m hm
  have ⟨l, hl⟩ := exists_linking hm
  have ⟨n, m', experiments, reports, he, hf, _, hj⟩ := l.exists_drafted (l.inRange_model hg)
  rw [hl, mergeDown_eq, bind_assoc, bind_assoc, Outcome.bind_of_eq he, Outcome.bind_of_eq he]
  simp only [hj, hf, bind_assoc, pure_bind, conclude_eq, validate]

end Assembler
end ModelAssembly
