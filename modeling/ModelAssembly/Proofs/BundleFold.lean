import ModelAssembly.Bundle
import ModelAssembly.Proofs.Delivery
/-!
Bundles in bundles. Assembling one comes by the bundles of the tree in post-order, each when the
models of its grafts are there. Though all of them report to one collector, each contributes what it
reports alone, under the filter of its own primary tree; the first that fails is the last that is
assembled.

Main statements: `assembleInto_eq` takes the collector out of the recursion; `Trace` says what a run
over some bundles comes to, and `exists_trace` that assembling a bundle is one over its post-order;
`bundles_assemble_in_postorder` puts it together.
-/

namespace ModelAssembly

namespace Bundle

mutual

-- The bundles in a bundle, each after its grafts.
def postorder : Bundle → List Bundle
  | ⟨primary, projectPath, modelPath, models, grafts⟩ =>
    postorderAll grafts ++ [⟨primary, projectPath, modelPath, models, grafts⟩]

def postorderAll : List (String × Bundle) → List Bundle
  | [] => []
  | (_, b) :: r => b.postorder ++ postorderAll r

end

-- The assembly of a bundle itself, with the models of its grafts and a collector of its own.
def alone (a : Assembler) (b : Bundle) (grafts : List (String × Model)) : Outcome Model :=
  let (result, c) := a.assembleInto (b.request grafts) {}
  ⟨result, c.diagnostics⟩

mutual

-- What a bundle comes to, whatever the collector has seen.
def outcome (a : Assembler) : Bundle → Outcome Model
  | ⟨primary, projectPath, modelPath, models, grafts⟩ => do
    let ms ← outcomes a grafts
    alone a ⟨primary, projectPath, modelPath, models, grafts⟩ ms

def outcomes (a : Assembler) : List (String × Bundle) → Outcome (List (String × Model))
  | [] => pure []
  | (name, b) :: r => do
    let m ← outcome a b
    let ms ← outcomes a r
    return (name, m) :: ms

end

section

variable {α β : Type} {c : Collector} {run : Except AssemblyError α × Collector} {x : Outcome α}
  {next : α → Collector → Except AssemblyError β × Collector} {f : α → Outcome β}

-- Goes on with the collector that a run leaves behind, unless the run failed.
def andThen (run : Except AssemblyError α × Collector)
    (next : α → Collector → Except AssemblyError β × Collector) :
    Except AssemblyError β × Collector :=
  match run with
  | (.error e, c) => (.error e, c)
  | (.ok y, c) => next y c

-- `x` is what a run adds to the collector `c`.
def Adds (c : Collector) (run : Except AssemblyError α × Collector) (x : Outcome α) : Prop :=
  run.1 = x.result ∧ run.2.diagnostics = c.diagnostics ++ x.diagnostics

theorem Adds.andThen (h : Adds c run x) (hnext : ∀ y c, Adds c (next y c) (f y)) :
    Adds c (andThen run next) (x >>= f) := by
  have ⟨result, c'⟩ := run
  have ⟨hr, hd⟩ := h
  rw [Adds, Outcome.bind_eq, ← hr]
  cases result
  case error e => exact ⟨rfl, hd⟩
  case ok y =>
    have ⟨hr', hd'⟩ := hnext y c'
    exact ⟨hr', hd'.trans (by rw [hd, List.append_assoc])⟩

end

variable {a : Assembler} {b : Bundle} {c : Collector} {grafts : List (String × Bundle)}

theorem adds_alone {ms : List (String × Model)} :
    Adds c (a.assembleInto (b.request ms) c) (alone a b ms) :=
  ⟨rfl, Assembler.diagnostics_assembleInto⟩

theorem assembleInto_eq_andThen {primary projectPath modelPath : String} {models : List Element} :
    assembleInto a c ⟨primary, projectPath, modelPath, models, grafts⟩ =
      andThen (assembleGrafts a c grafts) fun ms c =>
        a.assembleInto (request ⟨primary, projectPath, modelPath, models, grafts⟩ ms) c := by
  rw [assembleInto]
  cases assembleGrafts a c grafts
  case mk result c => cases result <;> rfl

theorem assembleGrafts_cons {name : String} : assembleGrafts a c ((name, b) :: grafts) =
    andThen (assembleInto a c b) fun m c =>
      andThen (assembleGrafts a c grafts) fun ms c => (.ok ((name, m) :: ms), c) := by
  rw [assembleGrafts]
  cases assembleInto a c b
  case mk result c =>
    cases result
    case error => rfl
    case ok m =>
      simp only [andThen]
      cases assembleGrafts a c grafts
      case mk result c => cases result <;> rfl

mutual

theorem adds_assembleInto (a : Assembler) :
    (b : Bundle) → (c : Collector) → Adds c (assembleInto a c b) (outcome a b)
  | ⟨primary, projectPath, modelPath, models, grafts⟩, c => by
    rw [assembleInto_eq_andThen, outcome]
    exact (adds_assembleGrafts a grafts c).andThen fun ms c => adds_alone

theorem adds_assembleGrafts (a : Assembler) : (gs : List (String × Bundle)) → (c : Collector) →
    Adds c (assembleGrafts a c gs) (outcomes a gs)
  | [], c => by
    rw [assembleGrafts, outcomes]
    exact ⟨rfl, (List.append_nil _).symm⟩
  | (name, b) :: gs, c => by
    rw [assembleGrafts_cons, outcomes]
    refine (adds_assembleInto a b c).andThen fun m c => ?_
    exact (adds_assembleGrafts a gs c).andThen fun ms c => ⟨rfl, (List.append_nil _).symm⟩

end

-- The collector can be left out.
theorem assemble_eq_outcome (a : Assembler) (b : Bundle) : b.assemble a = outcome a b := by
  have ⟨hr, hd⟩ := adds_assembleInto a b {}
  exact Outcome.ext hr hd

theorem given_of_outcomes {ms : List (String × Model)} (h : (outcomes a grafts).result = .ok ms) :
    List.Forall₂ (fun g x => x.1 = g.1 ∧ (outcome a g.2).result = .ok x.2) grafts ms := by
  induction grafts generalizing ms
  case nil =>
    rw [outcomes] at h
    cases h
    exact .nil
  case cons g grafts hi =>
    have ⟨name, b⟩ := g
    rw [outcomes] at h
    have ⟨m, hm, h⟩ := Outcome.bind_eq_ok_iff.mp h
    have ⟨ms, hms, h⟩ := Outcome.bind_eq_ok_iff.mp h
    cases h
    exact .cons ⟨rfl, hm⟩ (hi hms)

-- A bundle that a run comes to, with the models of its grafts.
structure Visit where
  bundle : Bundle
  grafts : List (String × Model)

namespace Visit

def outcome (a : Assembler) (v : Visit) : Outcome Model := alone a v.bundle v.grafts

def Given (a : Assembler) (v : Visit) : Prop :=
  List.Forall₂ (fun g x => x.1 = g.1 ∧ (Bundle.outcome a g.2).result = .ok x.2) v.bundle.grafts
    v.grafts

def Passes (a : Assembler) (v : Visit) : Prop := ∃ m, (v.outcome a).result = .ok m

end Visit

-- `visits` is what a run over the bundles `todo` comes by on its way to `x`: all of them, or those
-- up to the first that fails.
structure Trace (a : Assembler) {α : Type} (todo : List Bundle) (visits : List Visit)
    (x : Outcome α) : Prop where
  given : ∀ v ∈ visits, v.Given a
  diagnostics : x.diagnostics = visits.flatMap fun v => (v.outcome a).diagnostics
  done : ∀ y, x.result = .ok y → visits.map (·.bundle) = todo ∧ ∀ v ∈ visits, v.Passes a
  failed : ∀ e, x.result = .error e → visits.map (·.bundle) <+: todo ∧
    ∃ before last, visits = before ++ [last] ∧ (∀ v ∈ before, v.Passes a) ∧
      (last.outcome a).result = .error e

namespace Trace

variable {α β : Type} {x : Outcome α} {f : α → Outcome β} {todo todo' : List Bundle}
  {visits : List Visit} {v : Visit}

theorem pure (y : α) : Trace a [] [] (Pure.pure y : Outcome α) where
  given := by simp
  diagnostics := rfl
  done := by simp
  failed := by simp

theorem single (h : v.Given a) : Trace a [v.bundle] [v] (v.outcome a) where
  given := List.forall_mem_singleton.mpr h
  diagnostics := by simp
  done := fun m hm => ⟨rfl, List.forall_mem_singleton.mpr ⟨m, hm⟩⟩
  failed := fun e he => ⟨List.prefix_rfl, [], v, rfl, by simp, he⟩

theorem bind (h : Trace a todo visits x)
    (hnext : ∀ y, x.result = .ok y → ∃ visits, Trace a todo' visits (f y)) :
    ∃ visits, Trace a (todo ++ todo') visits (x >>= f) := by
  rw [Outcome.bind_eq]
  cases hr : x.result
  case error e =>
    have ⟨hpre, hlast⟩ := h.failed e hr
    refine ⟨visits, h.given, h.diagnostics, by simp, fun e' he => ?_⟩
    cases he
    exact ⟨hpre.trans (List.prefix_append ..), hlast⟩
  case ok y =>
    have ⟨hdone, hpass⟩ := h.done y hr
    have ⟨visits', h'⟩ := hnext y hr
    refine ⟨visits ++ visits', ?given, ?diagnostics, ?done, ?failed⟩
    case given => exact List.forall_mem_append.mpr ⟨h.given, h'.given⟩
    case diagnostics => rw [List.flatMap_append, ← h.diagnostics, ← h'.diagnostics]
    case done =>
      intro z hz
      have ⟨hdone', hpass'⟩ := h'.done z hz
      exact ⟨by rw [List.map_append, hdone, hdone'], List.forall_mem_append.mpr ⟨hpass, hpass'⟩⟩
    case failed =>
      intro e he
      have ⟨hpre, before, last, hvisits, hpass', hlast⟩ := h'.failed e he
      refine ⟨?_, visits ++ before, last, ?_, List.forall_mem_append.mpr ⟨hpass, hpass'⟩, hlast⟩
      · rw [List.map_append, hdone]
        exact (List.prefix_append_right_inj todo).mpr hpre
      · rw [hvisits, List.append_assoc]

end Trace

mutual

theorem exists_trace (a : Assembler) :
    (b : Bundle) → ∃ visits, Trace a b.postorder visits (outcome a b)
  | ⟨primary, projectPath, modelPath, models, grafts⟩ => by
    have ⟨_, h⟩ := exists_traceAll a grafts
    rw [postorder, outcome]
    refine h.bind fun ms hms => ?_
    let v : Visit := ⟨⟨primary, projectPath, modelPath, models, grafts⟩, ms⟩
    have hv : v.Given a := given_of_outcomes hms
    exact ⟨[v], .single hv⟩

theorem exists_traceAll (a : Assembler) :
    (gs : List (String × Bundle)) → ∃ visits, Trace a (postorderAll gs) visits (outcomes a gs)
  | [] => ⟨[], by rw [postorderAll, outcomes]; exact .pure []⟩
  | (name, b) :: gs => by
    have ⟨_, h⟩ := exists_trace a b
    have ⟨_, hs⟩ := exists_traceAll a gs
    rw [postorderAll, outcomes]
    refine h.bind fun m _ => ?_
    have hend (ms : List (String × Model)) : ∃ visits,
        Trace a [] visits (Pure.pure ((name, m) :: ms) : Outcome (List (String × Model))) :=
      ⟨[], .pure _⟩
    simpa using hs.bind fun ms _ => hend ms

end

-- The pragmas that count for a bundle are those of its own primary tree.
theorem diagnostics_alone {ms : List (String × Model)} {primary : Element}
    (h : b.models.head? = some primary) : (alone a b ms).diagnostics =
      (a.assemble (b.request ms)).diagnostics.filter (Filter.ofPragmas primary).admits := by
  have ht : (b.request ms).trees.head? = some primary.inheritFile := by
    rw [request, List.head?_map, h]
    rfl
  have hf : Filter.ofPragmas primary.inheritFile = .ofPragmas primary := by
    cases primary
    rfl
  change (a.assembleInto (b.request ms) {}).2.diagnostics = _
  rw [Assembler.assembleInto_eq, Outcome.run_deliver, Collector.diagnostics_emitAll,
    Collector.under, ht]
  simp [Collector.setFilter, hf]

theorem alone_of_no_tree {ms : List (String × Model)} (h : b.models = []) :
    alone a b ms = .fail .emptyInput := by
  have ht : (b.request ms).trees = [] := by rw [request, h]; rfl
  have hx : a.assemble (b.request ms) = .fail .emptyInput := by simp only [Assembler.assemble, ht]
  simp [alone, Assembler.assembleInto, hx, ht, Outcome.fail, Collector.emitAll]

end Bundle

-- Assembling a bundle comes by the bundles in it in post-order, each with the models that its own
-- grafts came to, up to the first that fails. What comes out is the result of the last of them, and
-- the diagnostics are those that each raises alone, under the pragmas of its own primary tree.
open ModelAssembly.Bundle in
theorem bundles_assemble_in_postorder (a : Assembler) (b : Bundle) :
    (∃ before last,
      let visits : List Visit := before ++ [last]
      visits.map (·.bundle) <+: b.postorder ∧
      (∀ v ∈ visits, List.Forall₂ (fun g x => x.1 = g.1 ∧ (g.2.assemble a).result = .ok x.2)
        v.bundle.grafts v.grafts) ∧
      (∀ v ∈ before, ∃ m, (v.outcome a).result = .ok m) ∧
      (b.assemble a).result = (last.outcome a).result ∧
      (b.assemble a).diagnostics = visits.flatMap (fun v => (v.outcome a).diagnostics) ∧
      ∀ m, (b.assemble a).result = .ok m →
        last.bundle = b ∧ visits.map (·.bundle) = b.postorder) ∧
    ∀ v : Visit,
      (∀ primary, v.bundle.models.head? = some primary → (v.outcome a).diagnostics =
        (a.assemble (v.bundle.request v.grafts)).diagnostics.filter
          (Filter.ofPragmas primary).admits) ∧
      (v.bundle.models = [] → v.outcome a = .fail .emptyInput) := by
  refine ⟨?_, fun v => ⟨fun _ => diagnostics_alone, alone_of_no_tree⟩⟩
  simp only [assemble_eq_outcome]
  obtain ⟨primary, projectPath, modelPath, models, grafts⟩ := b
  obtain ⟨visits, h⟩ := exists_traceAll a grafts
  simp only [outcome, postorder, Outcome.bind_eq]
  cases hgs : (outcomes a grafts).result
  case error e =>
    obtain ⟨hpre, before, last, hvisits, hpass, hlast⟩ := h.failed e hgs
    refine ⟨before, last, ?_, hvisits ▸ h.given, hpass, hlast.symm, hvisits ▸ h.diagnostics, ?_⟩
    · exact hvisits ▸ hpre.trans (List.prefix_append ..)
    · intro m hm
      cases hm
  case ok ms =>
    obtain ⟨hdone, hpass⟩ := h.done ms hgs
    let last : Visit := ⟨⟨primary, projectPath, modelPath, models, grafts⟩, ms⟩
    have hall : (visits ++ [last]).map (·.bundle) = postorderAll grafts ++ [last.bundle] := by
      rw [List.map_append, hdone]
      rfl
    refine ⟨visits, last, ?_, ?_, hpass, rfl, ?_, fun m _ => ⟨rfl, hall⟩⟩
    · exact hall ▸ List.prefix_rfl
    · exact List.forall_mem_append.mpr
        ⟨h.given, List.forall_mem_singleton.mpr (given_of_outcomes hgs)⟩
    · rw [List.flatMap_append, List.flatMap_singleton, h.diagnostics]
      rfl

end ModelAssembly
