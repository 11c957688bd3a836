import ModelAssembly.Bundle
import ModelAssembly.Proofs.Operations
import ModelAssembly.Proofs.Verdict
/-!
Safety: no stage of an assembly runs into the lock of a description, into an index without a
description or into a hierarchy that leads back to itself. What a request can fail for is what it
asks for, and a bundle does not even graft what is not finalized.

Main statements: `Assembler.failure_of_error` lists what a request can fail for, and
`Linking.locksLast` says that experiments are locked after their last change; `lock_never_hit` adds
the same for bundles.
-/

namespace ModelAssembly

open Assembler

namespace Model

variable {m : Model} {es : List (String × Model)} {is : List Nat} {e : AssemblyError}

-- The first model that is not finalized is not grafted.
theorem exists_refused (hm : m.root.isFinalized = false)
    (hno : ¬ ∀ g ∈ es, g.2.root.isFinalized = true) :
    ∃ g ∈ es, g.2.root.isFinalized = false ∧ (es.foldlM addGraft m).result =
      .error (.graftRefused g.1 g.2.name (.notFinalized g.2.name)) := by
  induction es generalizing m
  case nil => simp at hno
  case cons g es hi =>
    cases hg : g.2.root.isFinalized
    case false =>
      have hr : m.graft g.1 g.2 = .error (.notFinalized g.2.name) := graft_of_open hg
      refine ⟨g, List.mem_cons_self, hg, ?_⟩
      rw [List.foldlM_cons, addGraft, hr]
      rfl
    case true =>
      have hr : m.graft g.1 g.2 = .ok (m.withGrafts [(g.1, g.2)]) :=
        graft_eq_ok_iff.mpr ⟨hg, hm, rfl⟩
      have ho : (m.withGrafts [(g.1, g.2)]).root.isFinalized = false := by
        rw [root_withGrafts]
        exact hm
      have hrest : ¬ ∀ x ∈ es, x.2.root.isFinalized = true :=
        fun h => hno (List.forall_mem_cons.mpr ⟨hg, h⟩)
      obtain ⟨x, hx, hf, he⟩ := hi ho hrest
      refine ⟨x, List.mem_cons_of_mem g hx, hf, ?_⟩
      rw [List.foldlM_cons, addGraft, hr, Outcome.result_bind]
      exact he

theorem experimentFailed_of_forM_judge (h : ∀ i ∈ is, ∃ d, m.get? i = some d)
    (he : (forM is m.judge).result = .error e) : ∃ name, e = .experimentFailed name := by
  induction is
  case nil => cases he
  case cons i is hi =>
    have ⟨d, hd⟩ := h i List.mem_cons_self
    rw [List.forM_cons] at he
    cases Outcome.bind_eq_error_iff.mp he
    case inl he =>
      rw [judge_of_get? hd] at he
      split at he
      case isTrue => cases he
      case isFalse => exact ⟨d.name, (Except.error.inj he).symm⟩
    case inr he =>
      have ⟨_, _, he⟩ := he
      exact hi (fun j hj => h j (List.mem_cons_of_mem i hj)) he

end Model

namespace Assembler

open Model

variable {a : Assembler} {r : Request} {m n k : Model} {e : AssemblyError} {i : Nat}
variable {experiments : List Nat}

-- What a request can fail for.
inductive Failure (a : Assembler) (r : Request) : AssemblyError → Prop
  | emptyInput : r.trees = [] → Failure a r .emptyInput
  | missingPlugins {primary : Element} : r.trees.head? = some primary →
    a.settings.missingPlugins primary ≠ [] →
    Failure a r (.missingPlugins primary.modelName (a.settings.missingPlugins primary))
  | graftRefused {g : String × Model} : g ∈ r.grafts.entries → g.2.root.isFinalized = false →
    Failure a r (.graftRefused g.1 g.2.name (.notFinalized g.2.name))
  | experimentFailed (name : String) : Failure a r (.experimentFailed name)
  | modelFailed (name : String) : Failure a r (.modelFailed name)

theorem Linking.Drafted.error_of_validate {l : Linking a r} (h : l.Drafted m experiments)
    (hin : l.model.InRange) (he : (validate m experiments).result = .error e) : a.Failure r e := by
  cases Outcome.bind_eq_error_iff.mp he
  case inl he =>
    have hget (i) (hi : i ∈ experiments) : ∃ d, m.get? i = some d := by
      have ⟨d, hd, _⟩ := isKin_iff.mp (h.mem_experiments.mp hi)
      exact ⟨d, hd⟩
    have ⟨name, he⟩ := experimentFailed_of_forM_judge hget he
    exact he ▸ .experimentFailed name
  case inr he =>
    have ⟨_, _, he⟩ := he
    have hcontained := (h.extended.inRange hin).contained
    have ⟨ds, hf, _⟩ := Model.finalizeAll_eq fun i hi => hcontained.lt_of_mem_walk hi
    rw [Outcome.bind_of_eq hf] at he
    cases hp : ((m.closeAt ((m.walk rootIndex).drop 1)).openProblems [rootIndex]).isEmpty
    case true =>
      simp only [hp, if_true] at he
      cases he
    case false =>
      simp only [hp] at he
      exact Except.error.inj he ▸ .modelFailed _

-- The first graft that is not finalized ends the assembly.
theorem exists_error_of_open_graft {primary : Element} {imports : List Element}
    (ht : r.trees = primary :: imports) (hp : a.settings.missingPlugins primary = [])
    (hf : ¬ ∀ g ∈ r.grafts.entries, g.2.root.isFinalized = true) :
    ∃ g ∈ r.grafts.entries, g.2.root.isFinalized = false ∧
      (a.assemble r).result = .error (.graftRefused g.1 g.2.name (.notFinalized g.2.name)) := by
  have ⟨start, hs, ho⟩ : ∃ start, a.emptyModel r primary imports
      (Declarations.ofTrees r.trees).1.facets = .ok start ∧ start.root.isFinalized = false :=
    ⟨_, emptyModel_eq .., rfl⟩
  have ⟨g, hmem, hopen, hr⟩ := exists_refused ho hf
  refine ⟨g, hmem, hopen, ?_⟩
  rw [ht] at hs
  simp only [assemble, ht, checkPlugins_of_met hp, hs, populate, Outcome.result_bind, hr,
    pure_bind, Outcome.ofModel_ok]
  rfl

-- Whatever keeps a request from being assembled is to be found in the request.
theorem failure_of_error (hg : ∀ g ∈ r.grafts.entries, g.2.InRange)
    (h : (a.assemble r).result = .error e) : a.Failure r e := by
  cases ht : r.trees
  case nil =>
    simp only [assemble, ht] at h
    exact Except.error.inj h ▸ .emptyInput ht
  case cons primary imports =>
    by_cases hp : a.settings.missingPlugins primary = []
    case neg =>
      simp only [assemble, ht, Outcome.result_bind, result_checkPlugins_of_missing hp] at h
      exact Except.error.inj h ▸ .missingPlugins (by simp [ht]) hp
    case pos =>
      by_cases hf : ∀ g ∈ r.grafts.entries, g.2.root.isFinalized = true
      case pos =>
        obtain ⟨l, m, experiments, reports, he, hd⟩ := exists_draft ht hp hg hf
        rw [assemble_eq_draft hg, Outcome.bind_of_eq he] at h
        exact hd.error_of_validate (l.inRange_model hg) h
      case neg =>
        obtain ⟨g, hmem, hopen, he⟩ := exists_error_of_open_graft ht hp hf
        exact Except.error.inj (he.symm.trans h) ▸ .graftRefused hmem hopen

-- `m` is one of the models that an assembly comes by from `n` on, when `experiments` are still to
-- be concluded.
inductive Later (a : Assembler) : List Nat → Model → Model → Prop
  | here {experiments : List Nat} {n : Model} : Later a experiments n n
  | conclude {i : Nat} {experiments : List Nat} {n k m : Model} :
    (concludeExperiment n i).result = .ok k → Later a experiments k m →
    Later a (i :: experiments) n m
  | finish {n m : Model} : (a.finish n).result = .ok m → Later a [] n m
  | finalize {n k m : Model} {passed : Bool} : (a.finish n).result = .ok k →
    k.finalizeAll.result = .ok (m, passed) → Later a [] n m

theorem operations_of_finish (h : (a.finish n).result = .ok m) : n.Operations m := by
  have ⟨k, hk, h⟩ := Outcome.bind_eq_ok_iff.mp h
  have hk := Outcome.ofModel_eq_ok_iff.mp hk
  refine .tail ?_ (.buildTypes (Outcome.ofModel_eq_ok_iff.mp h))
  split at hk
  case isTrue => exact Operations.of_addScheduler hk
  case isFalse => exact Except.ok.inj hk ▸ .refl

theorem Later.operations (h : a.Later experiments n m) : n.Operations m := by
  induction h
  case here => exact .refl
  case conclude hc _ hi => exact (Operations.of_concludeExperiment hc).trans hi
  case finish hf => exact operations_of_finish hf
  case finalize hf hm => exact (operations_of_finish hf).trans (Operations.of_finalizeAll hm)

theorem Later.of_foldlM (h : (experiments.foldlM concludeExperiment n).result = .ok k)
    (hl : a.Later [] k m) : a.Later experiments n m := by
  induction experiments generalizing n
  case nil => exact Except.ok.inj h ▸ hl
  case cons i experiments hi =>
    rw [List.foldlM_cons] at h
    have ⟨n', hn, h⟩ := Outcome.bind_eq_ok_iff.mp h
    exact .conclude hn (hi h)

-- Each experiment is open until it is its turn. Then it is locked, and nothing changes it any more.
def LocksLast (a : Assembler) (n : Model) (experiments : List Nat) : Prop :=
  ∀ before i after, experiments = before ++ i :: after →
    ∀ k, (before.foldlM concludeExperiment n).result = .ok k →
      (∃ d, k.get? i = some d ∧ d.isFinalized = false) ∧
      ∀ k', (concludeExperiment k i).result = .ok k' →
        ∃ e, k'.get? i = some e ∧ e.isFinalized = true ∧ ∀ m, a.Later after k' m → m.get? i = some e

theorem locksLast_of_open (hn : experiments.Nodup) (ho : ∀ i ∈ experiments,
    ∃ d, n.get? i = some d ∧ d.isFinalized = false ∧ d.kind = .experiment) :
    a.LocksLast n experiments := by
  intro before i after hsplit k hk
  subst hsplit
  have ⟨hbefore, _, hdisj⟩ := List.nodup_append.mp hn
  have hi : i ∉ before := fun hm => hdisj i hm i List.mem_cons_self rfl
  have ⟨d, hd, hdo, hkind⟩ := ho i (by simp)
  rw [foldlM_concludeExperiment hbefore fun j hj => ho j (List.mem_append_left _ hj)] at hk
  have ⟨_, _, hk⟩ := Outcome.bind_eq_ok_iff.mp hk
  have hkd : k.get? i = some d := Except.ok.inj hk ▸ (get?_foldl_settleAt hi).trans hd
  refine ⟨⟨d, hkd, hdo⟩, fun k' hk' => ?_⟩
  rw [concludeExperiment_eq hkd hdo hkind] at hk'
  have ⟨_, _, hk'⟩ := Outcome.bind_eq_ok_iff.mp hk'
  have he := get?_settleAt hkd
  rw [Except.ok.inj hk'] at he
  exact ⟨_, he, rfl, fun m hl => hl.operations.get?_of_finalized he rfl⟩

-- From the linked model on, an assembly comes to its experiments, which it locks last of all.
theorem Linking.locksLast (l : Linking a r) (hin : l.model.InRange) :
    ∃ n experiments reports, mergeSpecies l.complemented = ⟨.ok (n, experiments), reports⟩ ∧
      (∀ i, i ∈ experiments ↔ l.model.isKin .experiment i = true) ∧ a.LocksLast n experiments ∧
      ∀ m, (a.assemble r).result = .ok m → a.Later experiments n m := by
  have ⟨n, experiments, reports, he, hc, hn, hx⟩ := l.exists_mergeSpecies hin
  have ho (i) (hi : i ∈ experiments) :
      ∃ d, n.get? i = some d ∧ d.isFinalized = false ∧ d.kind = .experiment :=
    l.exists_open_of_isKin hc ((hx i).mp hi)
  refine ⟨n, experiments, reports, he, hx, locksLast_of_open hn ho, fun m hm => ?_⟩
  have ⟨k, hk, hm⟩ := l.exists_merged hm
  rw [mergeDown_eq, Outcome.bind_of_eq he] at hk
  rw [conclude_eq] at hm
  have ⟨t, ht, hm⟩ := Outcome.bind_eq_ok_iff.mp hm
  have ⟨⟨m', passed⟩, hf, hm⟩ := Outcome.bind_eq_ok_iff.mp hm
  refine .of_foldlM hk (.finalize ht (?_ : t.finalizeAll.result = .ok (m, passed)))
  cases passed
  case true => exact Except.ok.inj hm ▸ hf
  case false => cases hm

-- Assembled models are finalized all through, if what they graft is.
theorem isFinalized_of_assemble (hg : ∀ g ∈ r.grafts.entries, g.2.InRange ∧
      ∀ i d, g.2.get? i = some d → d.isFinalized = true)
    (h : (a.assemble r).result = .ok m) : ∀ i d, m.get? i = some d → d.isFinalized = true := by
  have hin (g) (hm : g ∈ r.grafts.entries) : g.2.InRange := (hg g hm).1
  have hfin (g) (hm : g ∈ r.grafts.entries) := (hg g hm).2
  have hroots (g) (hm : g ∈ r.grafts.entries) : g.2.root.isFinalized = true :=
    hfin g hm _ _ (get?_rootIndex g.2)
  cases ht : r.trees
  case nil => simp [assemble, ht, Outcome.fail] at h
  case cons primary imports =>
    have hp : a.settings.missingPlugins primary = [] := by
      by_contra hp
      simp only [assemble, ht, Outcome.result_bind, result_checkPlugins_of_missing hp] at h
      cases h
    obtain ⟨l, draft, experiments, reports, he, hd⟩ := exists_draft ht hp hin hroots
    rw [assemble_eq_draft hin, Outcome.bind_of_eq he] at h
    obtain ⟨_, _, h⟩ := Outcome.bind_eq_ok_iff.mp h
    rw [Outcome.bind_of_eq (hd.finalizeAll_eq hfin hin)] at h
    have hm : draft.mapDescriptions (fun _ d => d.close) = m := by
      cases hp : draft.root.abstractActions.isEmpty
      case true =>
        simp only [hp] at h
        exact Except.ok.inj h
      case false => simp [hp, Outcome.fail] at h
    intro i d hd
    rw [← hm, get?_mapDescriptions] at hd
    obtain ⟨_, _, hd⟩ := Option.map_eq_some_iff.mp hd
    exact hd ▸ rfl

end Assembler

namespace Bundle

open Model

-- What a bundle can fail for.
inductive Failure : AssemblyError → Prop
  | emptyInput : Failure .emptyInput
  | missingPlugins (model : String) (plugins : List String) :
    Failure (.missingPlugins model plugins)
  | experimentFailed (name : String) : Failure (.experimentFailed name)
  | modelFailed (name : String) : Failure (.modelFailed name)

-- A model that can be grafted as it is.
structure Graftable (m : Model) : Prop where
  built : m.Built
  inRange : m.InRange
  isFinalized : ∀ i d, m.get? i = some d → d.isFinalized = true

-- What comes of a bundle: something that is `P`, or a failure.
def Yields {α : Type} (P : α → Prop) : Except AssemblyError α → Prop
  | .ok x => P x
  | .error e => Failure e

-- A request for such models comes to such a model, or fails as a bundle does.
theorem yields_assemble {a : Assembler} {r : Request}
    (hg : ∀ g ∈ r.grafts.entries, Graftable g.2) : Yields Graftable (a.assemble r).result := by
  have hin (g) (hm : g ∈ r.grafts.entries) : g.2.InRange := (hg g hm).inRange
  cases h : (a.assemble r).result
  case ok m =>
    have ⟨run⟩ := exists_run h
    have hfin := isFinalized_of_assemble (fun g hm => ⟨hin g hm, (hg g hm).isFinalized⟩) h
    have hrun := run.extended.inRange (run.inRange_model hin)
    exact ⟨.assemble (fun g hm => (hg g hm).built) h, hrun, hfin⟩
  case error e =>
    cases failure_of_error hin h
    case emptyInput => exact .emptyInput
    case missingPlugins => exact .missingPlugins ..
    case graftRefused g hm hf =>
      have hroot := (hg g hm).isFinalized _ _ (get?_rootIndex g.2)
      cases hroot.symm.trans hf
    case experimentFailed name => exact .experimentFailed name
    case modelFailed name => exact .modelFailed name

theorem graftable_of_assemble {a : Assembler} {r : Request} {m : Model}
    (hg : ∀ g ∈ r.grafts.entries, Graftable g.2) (h : (a.assemble r).result = .ok m) :
    Graftable m := by
  have hy : Yields Graftable (a.assemble r).result := yields_assemble hg
  rw [h] at hy
  exact hy

mutual

theorem yields_assembleInto (a : Assembler) :
    (b : Bundle) → (c : Collector) → Yields Graftable (assembleInto a c b).1
  | ⟨primary, projectPath, modelPath, models, grafts⟩, c => by
    have h := yields_assembleGrafts a grafts c
    rw [assembleInto]
    cases hgs : assembleGrafts a c grafts
    case mk result c =>
      rw [hgs] at h
      cases result
      case error e => exact h
      case ok ms =>
        refine yields_assemble fun g hm => h g ?_
        exact OrderedMap.mem_of_get?_ofList (OrderedMap.get?_eq_some_iff.mpr hm)

theorem yields_assembleGrafts (a : Assembler) : (gs : List (String × Bundle)) → (c : Collector) →
    Yields (fun ms => ∀ g ∈ ms, Graftable g.2) (assembleGrafts a c gs).1
  | [], c => by
    rw [assembleGrafts]
    exact fun _ hm => absurd hm List.not_mem_nil
  | (name, b) :: gs, c => by
    have hb := yields_assembleInto a b c
    rw [assembleGrafts]
    cases hfirst : assembleInto a c b
    case mk result c =>
      rw [hfirst] at hb
      cases result
      case error e => exact hb
      case ok m =>
        have h := yields_assembleGrafts a gs c
        cases hgs : assembleGrafts a c gs
        case mk result c =>
          rw [hgs] at h
          simp only [hgs]
          cases result
          case error e => exact h
          case ok ms => exact List.forall_mem_cons.mpr ⟨hb, h⟩

end

end Bundle

-- No request is refused on the way, whatever it asks for, provided that its grafts were built by
-- operations and have their parents within themselves: there is no description that is changed
-- after it was locked, no index without a description and no hierarchy without an order. Bundles do
-- not even fail for what they graft.
theorem lock_never_hit (a : Assembler) (r : Request)
    (hg : ∀ g ∈ r.grafts.entries, g.2.Built ∧ ∀ i j, g.2.Extends i j → j < g.2.size) :
    (∀ reason, (a.assemble r).result ≠ .error (.refused reason)) ∧
    (∀ e, (a.assemble r).result = .error e → a.Failure r e) ∧
    (∀ l : Linking a r, ∃ n experiments reports,
      mergeSpecies l.complemented = ⟨.ok (n, experiments), reports⟩ ∧
      (∀ i, i ∈ experiments ↔ l.model.isKin .experiment i = true) ∧ a.LocksLast n experiments ∧
      ∀ m, (a.assemble r).result = .ok m → a.Later experiments n m) ∧
    ∀ b : Bundle, (∀ e, (b.assemble a).result = .error e → Bundle.Failure e) ∧
      ∀ m, (b.assemble a).result = .ok m → Bundle.Graftable m := by
  have hin (g) (hm : g ∈ r.grafts.entries) : g.2.InRange := (hg g hm).1.inRange (hg g hm).2
  refine ⟨fun reason h => ?refused, fun e => failure_of_error hin,
    fun l => l.locksLast (l.inRange_model hin), fun b => ?bundle⟩
  case refused =>
    cases failure_of_error hin h
  case bundle =>
    have h : Bundle.Yields Bundle.Graftable (b.assemble a).result :=
      Bundle.yields_assembleInto a b {}
    refine ⟨fun e he => ?_, fun m hm => ?_⟩
    · rw [he] at h
      exact h
    · rw [hm] at h
      exact h

-- Two species, one of which extends the other.
def coop : Except ModelError Model := do
  let m ← Model.ofRoot (.new .model .model "coop" ∅) .defaults
  let m ← m.add Model.rootIndex (.new .species .species "hen" ∅)
  let m ← m.add Model.rootIndex (.new .species .species "chick" ∅)
  let m ← m.modify 2 (·.setParent (.declared 1))
  m.modify Model.rootIndex fun d => .ok d.close

-- A farm with an experiment of its own, into which `yard` is grafted.
def farmRequest (yard : Model) : Request where
  primary := "farm"
  trees := [{
    kind := .model
    name := some "farm"
    children := [{ kind := .experiment, name := some "trial" }] }]
  grafts := .ofList [("yard", yard)]

theorem lock_never_hit_on_farm : ∃ yard farm n experiments, coop = .ok yard ∧ yard.Built ∧
    (∀ reason, (({} : Assembler).assemble (farmRequest yard)).result ≠ .error (.refused reason)) ∧
    (({} : Assembler).assemble (farmRequest yard)).result = .ok farm ∧
    LocksLast {} n experiments ∧ Later {} experiments n farm := by
  have ⟨yard, hy⟩ : ∃ yard, coop = .ok yard := ⟨_, rfl⟩
  have hbuilt : yard.Built := by
    have ⟨_, h₁, h⟩ := bind_eq_ok_iff.mp hy
    have ⟨_, h₂, h⟩ := bind_eq_ok_iff.mp h
    have ⟨_, h₃, h⟩ := bind_eq_ok_iff.mp h
    have ⟨_, h₄, h⟩ := bind_eq_ok_iff.mp h
    have hadded := ((Model.Built.ofRoot (.new ..) h₁).operation (.add (.new ..) h₂)).operation
      (.add (.new ..) h₃)
    have hlinked := hadded.operations (.of_modify (fun _ _ => .setParent) h₄)
    exact hlinked.operations (.of_modify (fun _ _ hc => Except.ok.inj hc ▸ .close) h)
  have hparents (i j : Nat) (h : yard.Extends i j) : j < yard.size := by
    have hs : yard.size = 3 := by cases hy; rfl
    have hall : yard.descriptions.map (·.parent) = [none, none, some (.declared 1)] := by
      cases hy
      rfl
    have ⟨d, hd, hp⟩ := h
    have hm : some (.declared j) ∈ yard.descriptions.map (·.parent) :=
      hp ▸ List.mem_map_of_mem (List.mem_of_getElem? hd)
    have hj : j = 1 := by simpa [hall] using hm
    omega
  have hg : ∀ g ∈ (farmRequest yard).grafts.entries, g.2.Built ∧
      ∀ i j, g.2.Extends i j → j < g.2.size := by
    intro g hm
    cases List.mem_singleton.mp hm
    exact ⟨hbuilt, hparents⟩
  have ⟨farm, hf⟩ : ∃ farm, (({} : Assembler).assemble (farmRequest yard)).result = .ok farm := by
    apply Outcome.exists_of_isOk
    cases hy
    rfl
  have ⟨hno, _, hlocks, _⟩ := lock_never_hit {} (farmRequest yard) hg
  have ⟨run⟩ := exists_run hf
  have ⟨n, experiments, _, _, _, hlast, hlater⟩ := hlocks run.toLinking
  exact ⟨yard, farm, n, experiments, hy, hbuilt, hno, hf, hlast, hlater farm hf⟩

end ModelAssembly
