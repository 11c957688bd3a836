import ModelAssembly.Assembly.Assembler
import ModelAssembly.Proofs.Outcome
/-!
Delivery of diagnostics to a collector that many assemblies share. It makes no difference whether
what a step reports goes to the collector at once or when the whole run is over: nothing but the
filter is ever read, and a request sets the filter before anything is reported.

Main statements: `deliver_bind` and `deliver_foldlM` say that steps and loops of steps may deliver
as they go; `serve_isolated` that requests served one after the other do not see each other.
-/

namespace ModelAssembly

namespace Collector

-- What emitting diagnostics and setting filters makes of a fresh collector.
inductive Reachable : Collector → Prop
  | fresh : Reachable {}
  | setFilter {c : Collector} (filter : Filter) : Reachable c → Reachable (c.setFilter filter)
  | emit {c : Collector} (d : Diagnostic) : Reachable c → Reachable (c.emit d)

variable {c : Collector} {ds es : List Diagnostic}

theorem errorCount_pos_iff : 0 < c.errorCount ↔ c.diagnostics.any Diagnostic.isError = true := by
  rw [errorCount, List.countP_pos_iff, List.any_eq_true]

theorem Reachable.emitAll (h : c.Reachable) (ds : List Diagnostic) : (c.emitAll ds).Reachable := by
  induction ds generalizing c
  case nil => exact h
  case cons d ds hi => exact hi (h.emit d)

theorem Reachable.hasErrors_eq (h : c.Reachable) :
    c.hasErrors = c.diagnostics.any Diagnostic.isError := by
  induction h
  case fresh => rfl
  case setFilter _ hi => exact hi
  case emit d _ hi =>
    unfold Collector.emit
    split
    case isTrue => simp [hi]
    case isFalse => exact hi

theorem emitAll_append : c.emitAll (ds ++ es) = (c.emitAll ds).emitAll es :=
  List.foldl_append

theorem filter_emitAll : (c.emitAll ds).filter = c.filter := by
  rw [emitAll_eq]

theorem diagnostics_emitAll :
    (c.emitAll ds).diagnostics = c.diagnostics ++ ds.filter c.filter.admits := by
  rw [emitAll_eq]

-- `c` under the filter that `r` asks for.
def under (c : Collector) (r : Request) : Collector :=
  match r.trees.head? with
  | some primary => c.setFilter (.ofPragmas primary)
  | none => c

theorem diagnostics_under (r : Request) : (c.under r).diagnostics = c.diagnostics := by
  unfold under
  split <;> rfl

theorem Reachable.under (h : c.Reachable) (r : Request) : (c.under r).Reachable := by
  unfold Collector.under
  split
  case h_1 => exact h.setFilter _
  case h_2 => exact h

end Collector

-- A run that reports to a collector as it goes.
abbrev Session (α : Type) := ExceptT AssemblyError (StateM Collector) α

namespace Outcome

variable {α β σ : Type}

-- Hands what `x` reports over to the collector.
def deliver (x : Outcome α) : Session α :=
  ExceptT.mk fun c => (x.result, c.emitAll x.diagnostics)

theorem run_deliver (x : Outcome α) (c : Collector) :
    x.deliver.run c = (x.result, c.emitAll x.diagnostics) := rfl

theorem deliver_bind (x : Outcome α) (f : α → Outcome β) :
    (x >>= f).deliver = x.deliver >>= fun a => (f a).deliver := by
  obtain ⟨result, ds⟩ := x
  cases result
  case error => rfl
  case ok a =>
    funext c
    exact congrArg (Prod.mk _) Collector.emitAll_append

theorem deliver_foldlM (f : σ → β → Outcome σ) (s : σ) (l : List β) :
    (l.foldlM f s).deliver = l.foldlM (fun s x => (f s x).deliver) s := by
  induction l generalizing s
  case nil => rfl
  case cons x l hi =>
    rw [List.foldlM_cons, List.foldlM_cons, deliver_bind]
    congr 1
    exact funext hi

end Outcome

namespace Assembler

open Outcome

-- The assembly of `r` step by step: the filter is set before anything is reported, and each step
-- delivers what it reports before the next one begins.
def session (a : Assembler) (r : Request) : Session Model :=
  match r.trees with
  | [] => throw .emptyInput
  | primary :: imports => do
    modify (·.setFilter (.ofPragmas primary))
    (a.settings.checkPlugins primary).deliver
    let (ds, collisions) := Declarations.ofTrees r.trees
    (report collisions).deliver
    let m ← (ofModel (a.emptyModel r primary imports ds.facets)).deliver
    let m ← r.grafts.entries.foldlM (fun m g => (addGraft m g).deliver) m
    let p ← (Placement.ofDeclarations m ds).deliver
    let m ← (ofModel p.linkParents).deliver
    let m ← (m.addOwnMembers ds.members p.nodes).deliver
    let m ← (ofModel (m.inherit Model.rootIndex)).deliver
    let (m, species) ← (m.linearize .species).deliver
    let m ← (inheritAll m species).deliver
    let (m, experiments) ← (m.linearize .experiment).deliver
    let m ← experiments.foldlM (fun m i => (concludeExperiment m i).deliver) m
    (a.conclude m).deliver

theorem assembleInto_eq (a : Assembler) (r : Request) (c : Collector) :
    a.assembleInto r c = (a.assemble r).deliver.run (c.under r) := rfl

-- Delivering step by step comes to the same as delivering in the end.
theorem run_session (a : Assembler) (r : Request) (c : Collector) :
    (a.session r).run c = a.assembleInto r c := by
  rw [assembleInto_eq, session, assemble, Collector.under]
  cases r.trees
  case nil => rfl
  case cons primary imports =>
    simp only [populate, mergeDown, deliver_bind, deliver_foldlM, bind_assoc, List.head?_cons]
    rfl

-- Serves requests in order with one collector.
def serve (a : Assembler) : List Request → Collector →
    List (Except AssemblyError Model) × Collector
  | [], c => ([], c)
  | r :: rs, c =>
    let (x, c) := a.assembleInto r c
    let (xs, c) := a.serve rs c
    (x :: xs, c)

variable {a : Assembler} {r : Request} {rs : List Request} {c : Collector}

-- The diagnostics of a request do not depend on what the collector holds, nor on its filter.
theorem diagnostics_assembleInto : (a.assembleInto r c).2.diagnostics =
    c.diagnostics ++ (a.assembleInto r {}).2.diagnostics := by
  have hd (c : Collector) : (a.assembleInto r c).2.diagnostics =
      c.diagnostics ++ (a.assemble r).diagnostics.filter (c.under r).filter.admits := by
    rw [assembleInto_eq, run_deliver, Collector.diagnostics_emitAll, Collector.diagnostics_under]
  rw [hd, hd]
  cases ht : r.trees
  case nil => simp [assemble, ht, fail]
  case cons primary imports => simp [Collector.under, ht, Collector.setFilter]

theorem filter_assembleInto : (a.assembleInto r c).2.filter = (c.under r).filter :=
  Collector.filter_emitAll

theorem serve_eq : (a.serve rs c).1 = rs.map (fun r => (a.assembleInto r {}).1) ∧
    (a.serve rs c).2.diagnostics =
      c.diagnostics ++ rs.flatMap fun r => (a.assembleInto r {}).2.diagnostics := by
  induction rs generalizing c
  case nil => simp [serve]
  case cons r rs hi =>
    have ⟨h₁, h₂⟩ := hi (c := (a.assembleInto r c).2)
    constructor
    case left => exact congrArg ((a.assembleInto r c).1 :: ·) h₁
    case right => exact h₂.trans (by rw [diagnostics_assembleInto]; simp)

theorem reachable_serve (h : c.Reachable) : (a.serve rs c).2.Reachable := by
  induction rs generalizing c
  case nil => exact h
  case cons r rs hi => exact hi ((h.under r).emitAll _)

end Assembler

open Assembler

-- A request gets the result and the diagnostics that it gets alone, whatever the collector has
-- seen before, and so does each of several requests that are served in turn. The flag for errors is
-- right at every moment: after each diagnostic of each request.
theorem serve_isolated (a : Assembler) :
    (∀ r c, (a.session r).run c = a.assembleInto r c ∧
      (a.assembleInto r c).1 = (a.assembleInto r {}).1 ∧
      (a.assembleInto r c).2.diagnostics = c.diagnostics ++ (a.assembleInto r {}).2.diagnostics ∧
      (∀ primary imports, r.trees = primary :: imports →
        (a.assembleInto r c).2.filter = .ofPragmas primary) ∧
      (r.trees = [] → (a.assembleInto r c).2.filter = c.filter)) ∧
    (∀ rs c, (a.serve rs c).1 = rs.map (fun r => (a.assembleInto r {}).1) ∧
      (a.serve rs c).2.diagnostics =
        c.diagnostics ++ rs.flatMap fun r => (a.assembleInto r {}).2.diagnostics) ∧
    ∀ rs c r n, c.Reachable →
      let now := ((a.serve rs c).2.under r).emitAll ((a.assemble r).diagnostics.take n)
      now.hasErrors = true ↔ 0 < now.errorCount := by
  refine ⟨?one, fun _ _ => serve_eq, ?flag⟩
  case one =>
    intro r c
    refine ⟨run_session a r c, rfl, diagnostics_assembleInto, ?_, ?_⟩
    · intro primary imports ht
      rw [filter_assembleInto, Collector.under, ht]
      rfl
    · intro ht
      rw [filter_assembleInto, Collector.under, ht]
      rfl
  case flag =>
    intro rs c r n hc now
    have hnow : now.Reachable := ((reachable_serve hc).under r).emitAll _
    rw [Collector.errorCount_pos_iff, hnow.hasErrors_eq]

-- A model that declares a species twice.
def twinRequest : Request where
  primary := "main"
  trees := [{
    kind := .model
    name := some "main"
    children := [
      { kind := .species, name := some "wolf" },
      { kind := .species, name := some "wolf" }] }]

theorem serve_isolated_after_failure :
    let c := ({} : Collector).emit { severity := .error, message := "unreadable" }
    c.Reachable ∧ (({} : Assembler).serve [{ primary := "none" }, twinRequest] c).1 =
        [.error .emptyInput, (({} : Assembler).assembleInto twinRequest {}).1] ∧
      let now := ((({} : Assembler).serve [{ primary := "none" }] c).2.under twinRequest).emitAll
        ((({} : Assembler).assemble twinRequest).diagnostics.take 1)
      (now.hasErrors = true ↔ 0 < now.errorCount) := by
  intro c
  have hc : c.Reachable := .emit _ .fresh
  have ⟨_, hserve, hflag⟩ := serve_isolated {}
  exact ⟨hc, (hserve _ c).1, hflag [{ primary := "none" }] c twinRequest 1 hc⟩

end ModelAssembly
