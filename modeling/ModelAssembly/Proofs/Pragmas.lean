import ModelAssembly.Proofs.Delivery
import ModelAssembly.Proofs.Linking
import ModelAssembly.Proofs.Reports
/-!
The pragmas at the roots of syntax trees. Assembly reads those of the primary tree only: the plugins
that it requires, and the three that set the filter. The latter decide which notes and warnings get
through, and nothing else.

Main statements: `assemble_of_repragmed` says what the outcome of an assembly does not depend on;
`pragmas_only_select` what the filter makes of its diagnostics.
-/

namespace ModelAssembly

-- The pragmas that set the filter.
def Keyword.filters : List String := [noInfo, noWarning, noExperiment]

namespace Element

-- `f` is `e` with other pragmas at its root.
def Repragmed (e f : Element) : Prop := f = { e with pragmas := f.pragmas }

variable {e f : Element}

theorem Repragmed.modelName (h : e.Repragmed f) : f.modelName = e.modelName := by
  rw [h]
  rfl

theorem Repragmed.provenance (h : e.Repragmed f) : f.provenance = e.provenance := by
  rw [h]

theorem map_of_repragmed {α : Type} {g : Element → α} {es fs : List Element}
    (hg : ∀ e f, e.Repragmed f → g f = g e) (h : List.Forall₂ Repragmed es fs) :
    fs.map g = es.map g := by
  induction h
  case nil => rfl
  case cons hef _ hi => simp only [List.map_cons, hg _ _ hef, hi]

end Element

open Element

theorem Declarations.addTree_of_repragmed {e f : Element} (h : e.Repragmed f)
    (ds : Declarations × List Diagnostic) : addTree ds f = addTree ds e := by
  rw [h]
  rfl

theorem Declarations.ofTrees_of_repragmed {es fs : List Element}
    (h : List.Forall₂ Repragmed es fs) : ofTrees fs = ofTrees es := by
  have hfold (ds : Declarations × List Diagnostic) : fs.reverse.foldl addTree ds =
      es.reverse.foldl addTree ds := by
    rw [List.foldl_reverse, List.foldl_reverse]
    induction h
    case nil => rfl
    case cons hef _ hi => simp only [List.foldr_cons, hi, addTree_of_repragmed hef]
  exact hfold ({}, [])

theorem AssemblySettings.checkPlugins_of_repragmed {s : AssemblySettings} {e f : Element}
    (h : e.Repragmed f) (hr : f.pragmas.get? Keyword.requires = e.pragmas.get? Keyword.requires) :
    s.checkPlugins f = s.checkPlugins e := by
  have hp : missingPlugin f = missingPlugin e := by
    funext plugin
    simp only [missingPlugin, h.provenance]
  simp only [checkPlugins, missingPlugins, hr, hp, h.modelName]

namespace Assembler

variable {a : Assembler} {r r' : Request} {primary primary' : Element}
  {imports imports' : List Element}

-- Other pragmas change nothing, as long as the primary tree requires the same plugins.
theorem assemble_of_repragmed (ht : r.trees = primary :: imports)
    (hr : r' = { r with trees := primary' :: imports' }) (hp : primary.Repragmed primary')
    (hi : List.Forall₂ Repragmed imports imports')
    (hq : primary'.pragmas.get? Keyword.requires = primary.pragmas.get? Keyword.requires) :
    a.assemble r' = a.assemble r := by
  have hds : Declarations.ofTrees (primary' :: imports') =
      Declarations.ofTrees (primary :: imports) :=
    Declarations.ofTrees_of_repragmed (.cons hp hi)
  have hnames : imports'.map (·.modelName) = imports.map (·.modelName) :=
    map_of_repragmed (fun _ _ => Repragmed.modelName) hi
  have hfiles : r'.files = r.files := by
    have hprov := map_of_repragmed (fun _ _ => Repragmed.provenance) (.cons hp hi)
    have he (es : List Element) : es.filterMap (·.provenance.file) =
        (es.map (·.provenance)).filterMap (·.file) := List.filterMap_map.symm
    rw [Request.files, Request.files, hr, ht, List.filterMap_reverse, List.filterMap_reverse, he,
      hprov, ← he]
  have hempty (facets : Facets) :
      a.emptyModel r' primary' imports' facets = a.emptyModel r primary imports facets := by
    rw [emptyModel_eq, emptyModel_eq, freshRoot, hp.modelName, hp.provenance, hnames, hfiles, hr]
    rfl
  have hpop (m : Model) (ds : Declarations) : populate m r' ds = populate m r ds := by
    rw [hr]
    rfl
  have ht' : r'.trees = primary' :: imports' := by rw [hr]
  simp only [assemble, ht, ht', AssemblySettings.checkPlugins_of_repragmed hp hq, hds, hempty, hpop]

-- Other than errors there are only notes on declarations at the top of a tree, and the mark says
-- whether such a declaration is an experiment.
theorem tellsOf_of_not_error {d : Diagnostic} (hd : d ∈ (a.assemble r).diagnostics)
    (he : d.severity ≠ .error) : Declarations.TellsOf r.trees d := by
  have hall : (a.assemble r).All fun d => d.severity = .error ∨ Declarations.TellsOf r.trees d := by
    have hraise {cs : List Code} (d : Diagnostic) (h : d.Raises cs) :
        d.severity = .error ∨ Declarations.TellsOf r.trees d := .inl h.1
    unfold assemble
    split
    case h_1 => exact .of_fail _
    case h_2 primary imports ht =>
      refine .bind (.mono (a.settings.raises_checkPlugins primary) hraise) fun _ _ => ?_
      refine .bind (.of_report fun d hd => .inr ?_) fun _ _ => .bind (.of_ofModel _) fun m _ => ?_
      case refine_1 => exact Declarations.tellsOf_of_mem_ofTrees hd
      refine .bind (.mono (raises_populate m r _) hraise) fun m _ => ?_
      exact .bind (.mono (raises_mergeDown m) hraise) fun m _ => .mono (a.raises_conclude m) hraise
  exact (hall d hd).resolve_left he

end Assembler

-- An error always gets through, anything else unless a pragma drops it.
theorem Filter.admits_ofPragmas_eq_false_iff {tree : Element} {d : Diagnostic} :
    (ofPragmas tree).admits d = false ↔
      d.severity = .info ∧ (tree.pragmas.contains Keyword.noInfo = true ∨
        tree.pragmas.contains Keyword.noExperiment = true ∧ d.onExperiment = true) ∨
      d.severity = .warning ∧ (tree.pragmas.contains Keyword.noWarning = true ∨
        tree.pragmas.contains Keyword.noExperiment = true ∧ d.onExperiment = true) := by
  unfold admits
  cases d.severity
  case error => simp
  case warning => simp [ofPragmas, imp_iff_not_or]
  case info => simp [ofPragmas, imp_iff_not_or]

-- The mark of a collision tells whether it is about an experiment.
theorem Declarations.onExperiment_collision {name origin : String} {previous : Declaration}
    {e : Element} : (collision (kindOf e) name origin previous e).onExperiment = true ↔
      e.kind.isExperiment = true := by
  have hk : kindOf e = .experiment ↔ e.kind.isExperiment = true := by simp [kindOf]
  unfold collision
  split <;> simpa [duplicate, supersedes] using hk

-- Two requests for the same trees, the pragmas at their roots aside, come to the same result as
-- long as the primary trees agree on all pragmas but those for the filter. These select from what
-- is reported without them; pragmas of imported trees do not even do that.
theorem pragmas_only_select (a : Assembler) {r r' : Request} {primary primary' : Element}
    {imports imports' : List Element} (ht : r.trees = primary :: imports)
    (hr : r' = { r with trees := primary' :: imports' }) (hp : primary.Repragmed primary')
    (hi : List.Forall₂ Repragmed imports imports')
    (hq : ∀ k ∉ Keyword.filters, primary'.pragmas.get? k = primary.pragmas.get? k) :
    (∀ c, (a.assembleInto r' c).1 = (a.assembleInto r c).1) ∧
    ((∀ k ∈ Keyword.filters, primary.pragmas.contains k = false) →
      ∀ c, (a.assembleInto r' c).2.diagnostics = c.diagnostics ++
        (a.assembleInto r {}).2.diagnostics.filter (Filter.ofPragmas primary').admits) ∧
    (primary' = primary → ∀ c, a.assembleInto r' c = a.assembleInto r c) ∧
    (∀ d, (Filter.ofPragmas primary').admits d = false ↔
      d.severity = .info ∧ (primary'.pragmas.contains Keyword.noInfo = true ∨
        primary'.pragmas.contains Keyword.noExperiment = true ∧ d.onExperiment = true) ∨
      d.severity = .warning ∧ (primary'.pragmas.contains Keyword.noWarning = true ∨
        primary'.pragmas.contains Keyword.noExperiment = true ∧ d.onExperiment = true)) ∧
    ∀ d ∈ (a.assemble r).diagnostics, d.severity ≠ .error →
      ∃ tree ∈ r.trees, ∃ scope ∈ Declarations.scopes tree, ∃ e ∈ scope.declarations,
        (∃ previous, d = Declarations.collision (Declarations.kindOf e) e.nameOrKeyword
          tree.modelName previous e) ∧ (d.onExperiment = true ↔ e.kind.isExperiment = true) := by
  have he : a.assemble r' = a.assemble r :=
    Assembler.assemble_of_repragmed ht hr hp hi (hq Keyword.requires (by decide))
  have hinto (c : Collector) : a.assembleInto r' c =
      ((a.assemble r).result, (c.under r').emitAll (a.assemble r).diagnostics) := by
    rw [Assembler.assembleInto_eq, he]
    rfl
  have hunder' (c : Collector) : c.under r' = c.setFilter (.ofPragmas primary') := by
    rw [Collector.under, hr]
    rfl
  have hunder (c : Collector) : c.under r = c.setFilter (.ofPragmas primary) := by
    rw [Collector.under, ht]
    rfl
  refine ⟨?result, ?select, ?imported, fun d => Filter.admits_ofPragmas_eq_false_iff, ?marked⟩
  case result =>
    intro c
    rw [hinto]
    rfl
  case select =>
    intro hnone c
    have hall (d : Diagnostic) : (Filter.ofPragmas primary).admits d = true := by
      have h₁ := hnone Keyword.noInfo (by decide)
      have h₂ := hnone Keyword.noWarning (by decide)
      have h₃ := hnone Keyword.noExperiment (by decide)
      rw [← Bool.not_eq_false, Filter.admits_ofPragmas_eq_false_iff, h₁, h₂, h₃]
      simp
    have hbare : (a.assembleInto r {}).2.diagnostics = (a.assemble r).diagnostics := by
      rw [Assembler.assembleInto_eq, Outcome.run_deliver, Collector.diagnostics_emitAll, hunder]
      exact List.filter_eq_self.mpr fun d _ => hall d
    rw [hinto, Collector.diagnostics_emitAll, hunder', hbare]
    rfl
  case imported =>
    intro hpp c
    rw [hinto, hunder', hpp, ← hunder]
    rfl
  case marked =>
    intro d hd hne
    obtain ⟨tree, htree, scope, hs, e, hm, previous, hd⟩ := Assembler.tellsOf_of_not_error hd hne
    exact ⟨tree, htree, scope, hs, e, hm, ⟨previous, hd⟩,
      hd ▸ Declarations.onExperiment_collision⟩

-- A tree that declares a species and an experiment.
def trialTree (name : String) (pragmas : OrderedMap String (List String)) : Element where
  kind := .model
  name := some name
  children := [
    { kind := .species, name := some "wolf" },
    { kind := .experiment, name := some "trial" }]
  pragmas := pragmas

-- A model that replaces the species and the experiment of its import.
def trialRequest (pragmas : OrderedMap String (List String)) : Request where
  primary := "main"
  trees := [trialTree "main" pragmas, trialTree "lib" ∅]

-- The note on the experiment is dropped, that on the species is not.
theorem pragmas_only_select_in_trial :
    let a : Assembler := {}
    let quiet := (∅ : OrderedMap String (List String)).insert Keyword.noExperiment []
    (a.assembleInto (trialRequest quiet) {}).1 = (a.assembleInto (trialRequest ∅) {}).1 ∧
    (a.assembleInto (trialRequest quiet) {}).2.diagnostics =
      (a.assembleInto (trialRequest ∅) {}).2.diagnostics.filter
        (Filter.ofPragmas (trialTree "main" quiet)).admits ∧
    (a.assembleInto (trialRequest ∅) {}).2.diagnostics.map (·.onExperiment) = [false, true] ∧
    (a.assembleInto (trialRequest quiet) {}).2.diagnostics.map (·.onExperiment) = [false] := by
  intro a quiet
  have hq (k : String) (hk : k ∉ Keyword.filters) :
      (trialTree "main" quiet).pragmas.get? k = (trialTree "main" ∅).pragmas.get? k := by
    have hne : ¬ Keyword.noExperiment = k := fun he => hk (he ▸ by decide)
    exact (OrderedMap.get?_insert ..).trans (if_neg hne)
  have hr : trialRequest quiet = { trialRequest ∅ with
      trees := trialTree "main" quiet :: [trialTree "lib" ∅] } := rfl
  have hp (pragmas) : (trialTree "main" ∅).Repragmed (trialTree "main" pragmas) := rfl
  have hi : List.Forall₂ Repragmed [trialTree "lib" ∅] [trialTree "lib" ∅] := .cons rfl .nil
  have ht : (trialRequest ∅).trees = trialTree "main" ∅ :: [trialTree "lib" ∅] := rfl
  have ⟨hresult, hselect, _⟩ := pragmas_only_select a ht hr (hp quiet) hi hq
  have hselect := (hselect (by decide) {}).trans (List.nil_append _)
  exact ⟨hresult {}, hselect, by decide +kernel, by decide +kernel⟩

end ModelAssembly
