import ModelAssembly.Proofs.Lockstep
import ModelAssembly.Proofs.Scheduler
import ModelAssembly.Proofs.Walk
/-!
Scheduling on and off. Two assemblies of one request that differ only in whether scheduling facets
are moved raise the same diagnostics and fail alike; the models that they come to differ in the
scheduler and in nothing else.

Main statements: `OwnerTree.finalizeAll_eq` for the last walk through any tree;
`lockstep_validate` for validation with and without the scheduler; `scheduling_moves_facets`.
-/

open Relation

namespace ModelAssembly

open Description

namespace Model

variable {m n : Model} {i : Nat} {f : Facets} {roots experiments : List Nat}
  {ds : List Description} {types : TypeTable}

namespace OwnerTree

section

variable (h : m.OwnerTree)

include h

-- Every description is owned by the root in the end.
theorem owned_by_root (hi : i < m.size) : ReflTransGen m.OwnedBy i rootIndex := by
  induction i using Nat.strongRecOn
  case ind i ih =>
    by_cases h0 : i = rootIndex
    case pos => exact h0 ▸ .refl
    case neg =>
      have ⟨d, hd⟩ := get?_of_lt_size hi
      have ⟨o, ho, hlt⟩ := h.owner i d hd h0
      exact .head ⟨d, hd, ho⟩ (ih o hlt (Nat.lt_trans hlt hi))

theorem walk_root : m.walk rootIndex = rootIndex :: (m.walk rootIndex).drop 1 ∧
    rootIndex ∉ (m.walk rootIndex).drop 1 := by
  have hw := h.walk_eq m.rootIndex_lt_size
  have hn := h.nodup_walk m.rootIndex_lt_size
  rw [hw] at hn ⊢
  exact ⟨rfl, (List.nodup_cons.mp hn).1⟩

-- A walk from the root comes by everything.
theorem mem_walk_root_iff : i ∈ m.walk rootIndex ↔ i < m.size := by
  rw [h.mem_walk_iff m.rootIndex_lt_size]
  constructor
  case mpr => exact h.owned_by_root
  case mp =>
    intro ho
    cases ReflTransGen.cases_head ho
    case inl he => exact he ▸ m.size_pos
    case inr he =>
      have ⟨_, ho, _⟩ := he
      exact lt_size ho

-- The last walk finalizes everything, and reports on all that it finds open.
theorem finalizeAll_eq : m.finalizeAll =
    ⟨.ok (m.mapDescriptions fun _ d => d.close, (m.openProblems [rootIndex]).isEmpty),
      m.openProblems ((m.walk rootIndex).drop 1) ++ m.openProblems [rootIndex]⟩ := by
  have ⟨hroot, hno⟩ := h.walk_root
  have ⟨reports, he, hreports⟩ := Model.finalizeAll_eq fun _ => h.mem_walk_root_iff.mp
  have hnodup : ((m.walk rootIndex).drop 1).Nodup :=
    (h.nodup_walk m.rootIndex_lt_size).sublist (List.drop_sublist 1 _)
  have hclosed : m.closeAt ((m.walk rootIndex).drop 1 ++ [rootIndex]) =
      m.mapDescriptions fun _ d => d.close := by
    refine mapDescriptions_congr fun i d hd => if_pos ?_
    have hi := h.mem_walk_root_iff.mpr (lt_size_of_get? hd)
    rw [hroot, List.mem_cons] at hi
    exact List.mem_append.mpr (hi.symm.imp id fun h0 => List.mem_singleton.mpr h0)
  rw [he, hclosed, hreports (hnodup.filter _), openProblems_closeAt_singleton fun _ => hno]

variable (hf : Forest rootIndex m.size roots ds)

include hf

-- What stands below the root stays as it is when the root gets more content.
theorem walk_grow_of_ne (h0 : i ≠ rootIndex) (hi : i < m.size) :
    (m.grow rootIndex roots ds).walk i = m.walk i := by
  have hn := h.grow hf m.size_pos
  refine h.content_induction (P := fun i => i ≠ rootIndex →
    (m.grow rootIndex roots ds).walk i = m.walk i) (fun i hi ih h0 => ?_) hi h0
  have hlt : i < (m.grow rootIndex roots ds).size := by
    rw [size_grow]
    exact Nat.lt_add_right _ hi
  rw [h.walk_eq hi, hn.walk_eq hlt, microOf_grow_left _ _ _ _ hi, if_neg h0, List.append_nil]
  exact congrArg _ (List.flatMap_congr fun j hj =>
    ih j hj (Nat.ne_of_gt (Nat.zero_lt_of_lt (h.lt_of_mem_microOf hj).1)))

theorem walk_grow : (m.grow rootIndex roots ds).walk rootIndex =
    m.walk rootIndex ++ roots.flatMap (m.grow rootIndex roots ds).walk := by
  have hn := h.grow hf m.size_pos
  rw [hn.walk_eq (rootIndex_lt_size _), h.walk_eq m.rootIndex_lt_size,
    microOf_grow_left _ _ _ _ m.rootIndex_lt_size, if_pos rfl, List.flatMap_append, List.cons_append]
  refine congrArg (rootIndex :: · ++ _) (List.flatMap_congr fun j hj => ?_)
  have ⟨hlt, hj⟩ := h.lt_of_mem_microOf hj
  exact h.walk_grow_of_ne hf (Nat.ne_of_gt hlt) hj

end

theorem of_types (h : m.OwnerTree) (types : TypeTable) :
    ({ m with types } : Model).OwnerTree :=
  h.congr fun _ => rfl

theorem withRootFacets (h : m.OwnerTree) (f : Facets) : (m.withRootFacets f).OwnerTree := by
  refine h.congr fun i => ?_
  rw [Model.withRootFacets, get?_alter, Option.map_map]
  congr 1
  funext d
  by_cases hi : i = rootIndex <;> simp [hi]

theorem forest_scheduler :
    Forest rootIndex (m.withRootFacets f).size [m.size] [m.scheduler] := by
  have hsize : (m.withRootFacets f).size = m.size := size_alter
  rw [hsize]
  have ⟨members, hs⟩ := scheduler_eq (m := m)
  exact forest_singleton m.size_pos rfl (hs ▸ rfl)

theorem withScheduler (h : m.OwnerTree) : m.withScheduler.OwnerTree :=
  (h.withRootFacets _).grow forest_scheduler (size_pos _)

theorem walk_withScheduler (h : m.OwnerTree) :
    m.withScheduler.walk rootIndex = m.walk rootIndex ++ [m.size] := by
  have hfacets : (m.withRootFacets (m.root.facets.without relocated)).walk rootIndex =
      m.walk rootIndex := walk_mapDescriptions fun i d => by split <;> rfl
  have hlast : m.withScheduler.walk m.size = [m.size] := by
    have hlt : m.size < m.withScheduler.size := by rw [size_withScheduler]; exact Nat.lt_succ_self _
    have ⟨members, hs⟩ := scheduler_eq (m := m)
    have hmicro : m.scheduler.micro = [] := hs ▸ rfl
    rw [h.withScheduler.walk_eq hlt, microOf_of_get? get?_scheduler, hmicro]
    rfl
  have hw := (h.withRootFacets (m.root.facets.without relocated)).walk_grow forest_scheduler
  rw [hfacets] at hw
  refine hw.trans (congrArg (m.walk rootIndex ++ ·) ?_)
  rw [List.flatMap_cons, List.flatMap_nil, List.append_nil]
  exact hlast

end OwnerTree

-- The scheduler of a finalized model, with the default registry. Its facets are the scheduling
-- facets of the root, and it has nothing of its own.
def finalScheduler (m : Model) : Description where
  kind := .species
  declaredAs := .species
  name := Keyword.scheduler
  facets := .ofList (m.root.facets.select relocated)
  members := .ofList (Registry.agent.members.values.map fun x =>
    (x.key, x.inheritedVia Keyword.agent))
  parent := some (.builtIn Keyword.agent)
  owner := some rootIndex
  origin := some m.name
  provenance := m.root.provenance
  isFinalized := true

-- What becomes of a finalized model when its scheduling facets go to a scheduler: one description
-- at the end, contained in the root, and its type.
def rescheduled (m : Model) : Model :=
  { m with
    descriptions :=
      { m.root with
        facets := m.root.facets.without relocated
        micro := m.root.micro ++ [m.size] } :: m.descriptions.tail ++ [m.finalScheduler]
    nonempty := by simp
    types := m.types.insert ⟨Keyword.scheduler, m.size, some Keyword.agent⟩ }

section

variable (hr : m.registry = .defaults)

include hr

theorem close_scheduler : m.scheduler.close = m.finalScheduler := by
  have hagent : m.registry.species.get? Keyword.agent = some Registry.agent := by
    rw [hr]
    rfl
  rw [scheduler, hagent]
  rfl

-- There is nothing wrong with the scheduler.
theorem problemsAt_scheduler : m.withScheduler.problemsAt m.size = [] := by
  have ⟨members, hs⟩ := scheduler_eq (m := m)
  have hkind : m.scheduler.kind = .species := hs ▸ rfl
  have hparent : m.scheduler.parent = some (.builtIn Keyword.agent) := hs ▸ rfl
  have hagent : m.withScheduler.parentOf m.size = some Registry.agent := by
    rw [parentOf, get?_scheduler, Option.bind_some, hparent, Option.bind_some]
    change m.registry.lookup Keyword.agent = _
    rw [hr]
    rfl
  have hconcrete : (OrderedMap.ofList (Registry.agent.members.values.map fun x =>
      (x.key, x.inheritedVia Keyword.agent))).values.filter (·.isAbstract) = [] := by
    decide +kernel
  have hactions : m.scheduler.abstractActions = [] := by
    have hmembers := congrArg Description.members (close_scheduler hr)
    rw [abstractActions, show m.scheduler.members = _ from hmembers, finalScheduler, hconcrete,
      ite_self]
  have hspecies : Registry.agent.isExperiment = false := by decide
  rw [problemsAt_of_get? get?_scheduler, hagent, problems, hactions, experimentParent, hkind,
    badType, isExperiment, hkind]
  simp [hspecies]

end

section

variable (hp : ∀ i j, m.Extends i j → j < m.size)

include hp

theorem problemsAt_withScheduler (h0 : i ≠ rootIndex) (hi : i < m.size) :
    m.withScheduler.problemsAt i = m.problemsAt i := by
  have ⟨d, hd⟩ := get?_of_lt_size hi
  have hd' := (get?_withScheduler h0 hi).trans hd
  rw [problemsAt_of_get? hd, problemsAt_of_get? hd']
  apply problems_congr
  rw [parentOf, parentOf, hd, hd', Option.bind_some, Option.bind_some]
  cases hlink : d.parent
  case none => rfl
  case some link =>
    cases link
    case builtIn => rfl
    case declared j =>
      have hlike := congrArg (Option.map fun x => (x.1, x.2.1))
        (get?_withScheduler_like (hp i j ⟨d, hd, hlink⟩))
      rw [Option.map_map, Option.map_map] at hlike
      exact hlike

-- With the scheduler, the same is wrong with the descriptions that were there.
theorem openProblems_withScheduler {is : List Nat} (his : ∀ i ∈ is, i ≠ rootIndex ∧ i < m.size) :
    m.withScheduler.openProblems is = m.openProblems is := by
  have hopen : is.filter m.withScheduler.isOpen = is.filter m.isOpen := by
    refine List.filter_congr fun i hi => ?_
    rw [isOpen, isOpen, get?_withScheduler (his i hi).1 (his i hi).2]
  rw [openProblems, openProblems, hopen]
  refine List.flatMap_congr fun i hi => ?_
  obtain ⟨h0, hi⟩ := his i (List.mem_of_mem_filter hi)
  exact problemsAt_withScheduler hp h0 hi

end

theorem openProblems_root_withScheduler (hk : m.root.kind = .model) :
    m.withScheduler.openProblems [rootIndex] = m.openProblems [rootIndex] := by
  have hk' : m.withScheduler.root.kind = .model := by rw [root_withScheduler]; exact hk
  have hfaults : m.withScheduler.root.faults = m.root.faults := by
    have hbad (d : Description) (hd : d.kind = .model) : d.badType = none := by
      simp [badType, isExperiment, hd]
    rw [faults, faults, hbad _ hk, hbad _ hk', root_withScheduler]
    rfl
  rw [openProblems_singleton (get?_rootIndex _), openProblems_singleton (get?_rootIndex _),
    problems_of_not_species (by simp [hk']), problems_of_not_species (by simp [hk]), hfaults,
    root_withScheduler]

-- Closing and adding the scheduler may change places.
theorem close_withScheduler (hr : m.registry = .defaults) :
    ({ m.withScheduler with
      types := m.types.insert ⟨Keyword.scheduler, m.size, some Keyword.agent⟩ } : Model
    ).mapDescriptions (fun _ d => d.close) = (m.mapDescriptions fun _ d => d.close).rescheduled := by
  have ⟨ds, hd⟩ : ∃ ds, m.descriptions = m.root :: ds := ⟨_, (List.cons_head_tail m.nonempty).symm⟩
  have hfinal : (m.mapDescriptions fun _ d => d.close).finalScheduler = m.scheduler.close := by
    rw [close_scheduler hr, finalScheduler, name, root_mapDescriptions]
    rfl
  have hsize : (m.mapDescriptions fun _ d => d.close).size = m.size := size_mapDescriptions
  have hid : (ds.mapIdx fun _ d => d) = ds := mapIdx_eq_self fun _ _ _ => rfl
  apply ext_fields <;> try rfl
  case hd =>
    simp only [rescheduled, hfinal, hsize, root_mapDescriptions]
    simp [withScheduler, grow, append, alter, withRootFacets, mapDescriptions, hd, rootIndex,
      List.mapIdx_cons, hid, close]
  case ht =>
    simp only [rescheduled, hsize]
    rfl

end Model

namespace Assembler

open Model Outcome

variable {a : Assembler} {r : Request} {m n : Model} {experiments : List Nat}

theorem validate_eq (h : m.OwnerTree) : validate m experiments = (do
    forM experiments m.judge
    ⟨if (m.openProblems [rootIndex]).isEmpty then .ok (m.mapDescriptions fun _ d => d.close)
      else .error (.modelFailed m.name),
      m.openProblems ((m.walk rootIndex).drop 1) ++ m.openProblems [rootIndex]⟩) := by
  have hname : (m.mapDescriptions fun _ d => d.close).name = m.name := by
    rw [Model.name, root_mapDescriptions]
    rfl
  rw [validate, h.finalizeAll_eq]
  refine congrArg _ (funext fun _ => ?_)
  cases (m.openProblems [rootIndex]).isEmpty <;> simp [Outcome.bind_eq, Outcome.fail, hname]

-- Validation does not notice the scheduler.
theorem lockstep_validate (h : m.OwnerTree) (hp : ∀ i j, m.Extends i j → j < m.size)
    (hr : m.registry = .defaults) (hk : m.root.kind = .model)
    (hx : ∀ i ∈ experiments, i ≠ rootIndex ∧ i < m.size) :
    Lockstep (fun x y => y = x.rescheduled) (validate m experiments)
      (validate { m.withScheduler with
        types := m.types.insert ⟨Keyword.scheduler, m.size, some Keyword.agent⟩ } experiments) := by
  let types := m.types.insert ⟨Keyword.scheduler, m.size, some Keyword.agent⟩
  have hn : ({ m.withScheduler with types } : Model).OwnerTree := h.withScheduler.of_types types
  have ⟨hroot, hno⟩ := h.walk_root
  have hlt (i : Nat) (hi : i ∈ (m.walk rootIndex).drop 1) : i ≠ rootIndex ∧ i < m.size :=
    ⟨fun h0 => hno (h0 ▸ hi), h.mem_walk_root_iff.mp (List.mem_of_mem_drop hi)⟩
  have hwalk : (m.withScheduler.walk rootIndex).drop 1 =
      (m.walk rootIndex).drop 1 ++ [m.size] := by
    rw [h.walk_withScheduler, hroot]
    rfl
  have hscheduler : m.withScheduler.openProblems [m.size] = [] := by
    rw [openProblems, List.flatMap_eq_nil_iff]
    intro i hi
    rw [List.mem_singleton.mp (List.mem_of_mem_filter hi)]
    exact problemsAt_scheduler hr
  have hproblems : m.withScheduler.openProblems ((m.withScheduler.walk rootIndex).drop 1) =
      m.openProblems ((m.walk rootIndex).drop 1) := by
    rw [hwalk, openProblems_append, hscheduler, List.append_nil]
    exact openProblems_withScheduler hp hlt
  have hname : m.withScheduler.name = m.name := by
    rw [Model.name, root_withScheduler]
    rfl
  have hjudge : forM experiments m.withScheduler.judge = forM experiments m.judge :=
    forM_judge_congr fun i hi => get?_withScheduler (hx i hi).1 (hx i hi).2
  have hvalidate : validate { m.withScheduler with types } experiments = (do
      forM experiments m.judge
      ⟨if (m.openProblems [rootIndex]).isEmpty then .ok (m.mapDescriptions fun _ d => d.close
          ).rescheduled else .error (.modelFailed m.name),
        m.openProblems ((m.walk rootIndex).drop 1) ++ m.openProblems [rootIndex]⟩) := by
    have hw : ({ m.withScheduler with types } : Model).walk rootIndex =
        m.withScheduler.walk rootIndex := walk_congr rfl fun _ => rfl
    rw [validate_eq hn, hw, ← close_withScheduler hr, ← hproblems,
      ← openProblems_root_withScheduler hk, ← hname, ← hjudge]
    rfl
  rw [hvalidate, validate_eq h]
  refine .bind (.self _) fun _ _ _ => ?_
  cases (m.openProblems [rootIndex]).isEmpty
  case true => exact .ok rfl
  case false => exact .error

theorem facets_of_validate (h : (validate m experiments).result = .ok n) :
    n.root.facets = m.root.facets := by
  have ⟨_, _, h⟩ := Outcome.bind_eq_ok_iff.mp h
  have ⟨⟨k, passed⟩, hf, h⟩ := Outcome.bind_eq_ok_iff.mp h
  have hk : k = n := by
    cases passed
    case true => exact Except.ok.inj h
    case false => cases h
  have ⟨d, hd, hl⟩ := (locked_of_finalizeAll (hk ▸ hf)).get? (get?_rootIndex m)
  rw [root_eq_iff.mpr hd]
  exact facets_of_bare hl.refilled.bare

-- Everything up to the scheduler, with the experiments that are closed by then.
def unscheduled (a : Assembler) (r : Request) : Outcome (Model × List Nat) :=
  match r.trees with
  | [] => .fail .emptyInput
  | primary :: imports => do
    a.settings.checkPlugins primary
    let (ds, collisions) := Declarations.ofTrees r.trees
    .report collisions
    let m ← .ofModel (a.emptyModel r primary imports ds.facets)
    let (m, experiments) ← mergeSpecies (← populate m r ds)
    return (experiments.foldl Model.settleAt m, experiments)

theorem unscheduled_eq_populated : a.unscheduled r = (do
    let (m, experiments) ← mergeSpecies (← a.populated r)
    return (experiments.foldl Model.settleAt m, experiments)) := by
  rw [unscheduled, populated]
  cases r.trees
  case nil => rfl
  case cons => simp only [bind_assoc]

theorem assemble_eq_unscheduled (hg : ∀ g ∈ r.grafts.entries, g.2.InRange) : a.assemble r = (do
    let (m, experiments) ← a.unscheduled r
    validate (← a.finish m) experiments) := by
  rw [assemble_eq_draft hg, draft_eq_populated, unscheduled_eq_populated]
  simp only [bind_assoc, pure_bind]

-- What comes to the scheduler is the linked model, with members, locks and links that were cut.
theorem linked_of_unscheduled (hg : ∀ g ∈ r.grafts.entries, g.2.InRange)
    (h : (a.unscheduled r).result = .ok (m, experiments)) : ∃ l : Linking a r,
      Changed SameKin l.model m ∧ m.root.isFinalized = false ∧
        ∀ i ∈ experiments, i ≠ rootIndex ∧ i < m.size := by
  rw [unscheduled_eq_populated] at h
  have ⟨k, hk, h⟩ := Outcome.bind_eq_ok_iff.mp h
  have ⟨l, hl⟩ := exists_linking hk
  have ⟨n, order, reports, he, hc, _, hx⟩ := l.exists_mergeSpecies (l.inRange_model hg)
  rw [hl, Outcome.bind_of_eq he] at h
  cases h
  have hsettled : Changed SameKin l.model (experiments.foldl settleAt n) :=
    (hc.mono fun _ _ h => h.1).trans (fun _ _ _ => .trans) changed_foldl_settleAt
  have hplaced (i) (hi : i ∈ experiments) : i ≠ rootIndex ∧ i < l.model.size := by
    have ⟨hle, hlt⟩ := l.placed_of_isKin (by decide) ((hx i).mp hi)
    exact ⟨Nat.ne_of_gt (Nat.lt_of_lt_of_le l.base_pos hle), hlt⟩
  have ⟨hroot, hopen⟩ := l.root_settled hc fun i => (hx i).mp
  exact ⟨l, hsettled, hroot ▸ hopen, fun i hi => hsettled.size ▸ hplaced i hi⟩

variable {s : AssemblySettings}

-- An assembler with the default registry that moves scheduling facets, or leaves them.
def scheduling (s : AssemblySettings) (legacyScheduling : Bool) : Assembler where
  settings := { s with legacyScheduling }

-- From the scheduler on, the two stay in lockstep.
theorem lockstep_finish {l : Linking (scheduling s false) r}
    (hg : ∀ g ∈ r.grafts.entries, g.2.Built) (hin : ∀ g ∈ r.grafts.entries, g.2.InRange)
    (hc : Changed SameKin l.model m) (ho : m.root.isFinalized = false)
    (hx : ∀ i ∈ experiments, i ≠ rootIndex ∧ i < m.size) :
    Lockstep (fun x y => x.root.facets = (Declarations.ofTrees r.trees).1.facets ∧
        y = if relocated.any (Declarations.ofTrees r.trees).1.facets.contains then x.rescheduled
          else x)
      (do validate (← (scheduling s false).finish m) experiments)
      (do validate (← (scheduling s true).finish m) experiments) := by
  obtain ⟨d, hd, hb, _⟩ := hc.get? (get?_rootIndex l.model)
  have hroot : m.root = d := root_eq_iff.mpr hd
  have hfacets : m.root.facets = (Declarations.ofTrees r.trees).1.facets := by
    rw [hroot, facets_of_bare hb, l.root_model]
    rfl
  have hkind : m.root.kind = .model := by
    rw [hroot, kind_of_bare hb]
    exact l.kind_root
  have hreg : m.registry = .defaults := hc.registry.trans l.registry_model
  have htree : m.OwnerTree := (l.built_model hg).ownerTree.of_changed hc
  have hparents := (l.inRange_model hin).parent_of_changed hc
  have hgrafts (e) (he : e ∈ m.grafts.entries) : e.2 < m.size := by
    rw [hc.grafts] at he
    rw [hc.size]
    exact l.lt_of_mem_grafts he
  obtain ⟨types, ht⟩ := exists_buildTypes hparents hgrafts
  have hoff : (scheduling s false).finish m = pure { m with types } := by
    simp only [finish, scheduling, Bool.false_eq_true, if_false, ofModel_ok, pure_bind, ht]
  have hsched : m.hasSchedule =
      relocated.any (Declarations.ofTrees r.trees).1.facets.contains := by
    rw [hasSchedule, hfacets]
  have hok (x : Model) (hv : (validate { m with types } experiments).result = .ok x) :
      x.root.facets = (Declarations.ofTrees r.trees).1.facets :=
    (facets_of_validate hv).trans hfacets
  rw [hoff, pure_bind]
  cases hany : relocated.any (Declarations.ofTrees r.trees).1.facets.contains
  case false =>
    have hon : (scheduling s true).finish m = pure { m with types } := by
      simp only [finish, scheduling, if_true, addScheduler_eq ho, hsched, hany,
        Bool.false_eq_true, if_false, ofModel_ok, pure_bind, ht]
    rw [hon, pure_bind]
    exact (Lockstep.self _).with_results.mono fun x y h => ⟨hok x h.2.1, h.1⟩
  case true =>
    have hon : (scheduling s true).finish m = pure { m.withScheduler with
        types := types.insert ⟨Keyword.scheduler, m.size, some Keyword.agent⟩ } := by
      simp only [finish, scheduling, if_true, addScheduler_eq ho, hsched, hany, ofModel_ok,
        pure_bind, buildTypes_withScheduler hparents hgrafts ht]
    rw [hon, pure_bind]
    have hv := lockstep_validate (m := { m with types }) (htree.of_types types) hparents hreg
      hkind hx
    exact hv.with_results.mono fun x y h => ⟨hok x h.2.1, h.1⟩

theorem lockstep_assemble
    (hg : ∀ g ∈ r.grafts.entries, g.2.Built ∧ ∀ i j, g.2.Extends i j → j < g.2.size) :
    Lockstep (fun x y => x.root.facets = (Declarations.ofTrees r.trees).1.facets ∧
        y = if relocated.any (Declarations.ofTrees r.trees).1.facets.contains then x.rescheduled
          else x)
      ((scheduling s false).assemble r) ((scheduling s true).assemble r) := by
  have hin (g) (hm : g ∈ r.grafts.entries) : g.2.InRange := (hg g hm).1.inRange (hg g hm).2
  have hsame : (scheduling s true).unscheduled r = (scheduling s false).unscheduled r := rfl
  rw [assemble_eq_unscheduled hin, assemble_eq_unscheduled hin, hsame]
  refine .bind (Lockstep.self _).with_results ?_
  rintro ⟨m, experiments⟩ _ ⟨rfl, hu, _⟩
  have ⟨l, hc, ho, hx⟩ := linked_of_unscheduled hin hu
  exact lockstep_finish (fun g hm => (hg g hm).1) hin hc ho hx

end Assembler

open Assembler

-- Moving the scheduling facets changes what it says and nothing else: with the default registry,
-- it makes no difference to the diagnostics and to failures. Where there is nothing to schedule,
-- the same model comes of it; else the model gets its scheduler.
-- Grafts have their parents in range. If one had its parent at the index that the scheduler gets,
-- building the types would abort without the scheduler only.
theorem scheduling_moves_facets (s : AssemblySettings) (r : Request)
    (hg : ∀ g ∈ r.grafts.entries, g.2.Built ∧ ∀ i j, g.2.Extends i j → j < g.2.size) :
    let facets := (Declarations.ofTrees r.trees).1.facets
    let off := (scheduling s false).assemble r
    let on := (scheduling s true).assemble r
    on.diagnostics = off.diagnostics ∧
    (∀ e, on.result = .error e ↔ off.result = .error e) ∧
    (∀ m, off.result = .ok m → m.root.facets = facets ∧ on.result = .ok
      (if facets.contains Keyword.schedules || facets.contains Keyword.frequency then
        m.rescheduled else m)) := by
  intro facets off on
  have ⟨hdiagnostics, herror, hok⟩ := (lockstep_assemble (s := s) hg).elim
  refine ⟨hdiagnostics, herror, fun m hm => ?_⟩
  have ⟨n, hn, hfacets, hy⟩ := hok m hm
  have hany : Model.relocated.any facets.contains =
      (facets.contains Keyword.schedules || facets.contains Keyword.frequency) := by
    simp [Model.relocated]
  exact ⟨hfacets, hn.trans (congrArg _ (hany ▸ hy))⟩

-- The park is scheduled, and has a pond grafted.
theorem scheduling_moves_facets_of_park : ∃ pond m,
    ((scheduling {} false).assemble pondRequest).result = .ok pond ∧
    ((scheduling {} false).assemble (parkRequest pond)).result = .ok m ∧
    ((scheduling {} true).assemble (parkRequest pond)).result = .ok m.rescheduled ∧
    m.size = 5 ∧ m.root.facets = .ofList [(Keyword.schedules, "shuffle(bench)")] := by
  have hfacts : (do
      let pond ← ((scheduling {} false).assemble pondRequest).result
      ((scheduling {} false).assemble (parkRequest pond)).result :
        Except AssemblyError Model).toOption.map (·.size) = some 5 := by
    decide +kernel
  have ⟨m, hm, hsize⟩ := Option.map_eq_some_iff.mp hfacts
  have ⟨pond, hp, hpark⟩ := bind_eq_ok_iff.mp (toOption_eq_some_iff.mp hm)
  have hgrafts (g) (hg : g ∈ (parkRequest pond).grafts.entries) :
      g.2.Built ∧ ∀ i j, g.2.Extends i j → j < g.2.size := by
    have hnone (g) (hg : g ∈ pondRequest.grafts.entries) : False := List.not_mem_nil hg
    have ⟨run⟩ := exists_run hp
    have hin := run.extended.inRange (run.inRange_model fun g hg => (hnone g hg).elim)
    cases List.mem_singleton.mp hg
    exact ⟨.assemble (fun g hg => (hnone g hg).elim) hp, hin.parent⟩
  have ⟨_, _, hmoves⟩ := scheduling_moves_facets {} (parkRequest pond) hgrafts
  have ⟨hfacets, hon⟩ := hmoves m hpark
  exact ⟨pond, m, hp, hpark, hon, hsize, hfacets⟩

end ModelAssembly
