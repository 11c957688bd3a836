import ModelAssembly.Proofs.Delivery
import ModelAssembly.Proofs.Drafting
import ModelAssembly.Proofs.Reports
/-!
What is reported along with a failure. Each stage that ends the assembly by itself reports errors
first, except for the grafting: that a graft is refused is told by the failure alone.

Main statements: `Outcome.Explained` for the stages behind the grafts, one lemma for each of them,
and `failures_come_with_errors`.
-/

namespace ModelAssembly

namespace AssemblyError

-- Validation has failed, and `ds` tell of it. No other failure needs any telling, and some cannot
-- happen once the grafts are in place.
def Explained (ds : List Diagnostic) : AssemblyError → Prop
  | experimentFailed _ | modelFailed _ => ∃ d ∈ ds, d.Raises Code.ofValidation
  | refused _ => True
  | emptyInput | missingPlugins .. | graftRefused .. => False

theorem Explained.mono {ds es : List Diagnostic} (hs : ds ⊆ es) {e : AssemblyError}
    (h : e.Explained ds) : e.Explained es := by
  cases e
  case experimentFailed | modelFailed =>
    have ⟨d, hd, hr⟩ := h
    exact ⟨d, hs hd, hr⟩
  case refused => exact h
  case emptyInput | missingPlugins | graftRefused => exact h.elim

end AssemblyError

namespace Outcome

open AssemblyError

variable {α β σ : Type}

-- If `x` fails, then what it reports explains why.
def Explained (x : Outcome α) : Prop := ∀ e, x.result = .error e → e.Explained x.diagnostics

namespace Explained

theorem of_pure (a : α) : (pure a : Outcome α).Explained := nofun

theorem of_report (ds : List Diagnostic) : (report ds).Explained := nofun

theorem of_ofModel (r : Except ModelError α) : (ofModel r).Explained := by
  intro e he
  cases r
  case ok => exact nomatch he
  case error reason =>
    cases he
    trivial

-- A step may count on what was reported before it.
theorem bind_after {x : Outcome α} {f : α → Outcome β} (hx : x.Explained)
    (hf : ∀ a, x.result = .ok a → ∀ e, (f a).result = .error e →
      e.Explained (x.diagnostics ++ (f a).diagnostics)) : (x >>= f).Explained := by
  intro e he
  rw [bind_eq] at he ⊢
  cases hr : x.result
  case error e' =>
    rw [hr] at he
    cases he
    exact hx e hr
  case ok a =>
    rw [hr] at he
    exact hf a hr e he

theorem bind {x : Outcome α} {f : α → Outcome β} (hx : x.Explained)
    (hf : ∀ a, (f a).Explained) : (x >>= f).Explained :=
  bind_after hx fun a _ e he => (hf a e he).mono (List.subset_append_right ..)

theorem foldlM {f : σ → β → Outcome σ} {l : List β} (hf : ∀ s x, (f s x).Explained) (s : σ) :
    (l.foldlM f s).Explained := by
  induction l generalizing s
  case nil => exact of_pure s
  case cons x l hi =>
    rw [List.foldlM_cons]
    exact bind (hf s x) hi

end Explained
end Outcome

open Outcome Diagnostic

namespace Placement

mutual

theorem explained_place (owner : Nat) (origin : String) (p : Placement) :
    (t : DeclarationTree) → (place owner origin p t).Explained
  | .node e nested => by
    rw [place]
    split
    case h_1 => exact .of_pure p
    case h_2 =>
      exact .bind (.of_ofModel _) fun q => .bind (.of_report _) fun _ =>
        explained_placeAll p.model.size origin q nested

theorem explained_placeAll (owner : Nat) (origin : String) (p : Placement) :
    (ts : List DeclarationTree) → (placeAll owner origin p ts).Explained
  | [] => by
    rw [placeAll]
    exact .of_pure p
  | t :: ts => by
    rw [placeAll]
    exact .bind (explained_place owner origin p t) fun q => explained_placeAll owner origin q ts

end

theorem explained_ofDeclarations (m : Model) (ds : Declarations) :
    (ofDeclarations m ds).Explained :=
  .bind (.foldlM (fun p (d : Declaration) => explained_place _ d.origin p _) _)
    fun _ => .of_pure _

end Placement

namespace Model

theorem explained_addMembers (m : Model) (i : Nat) (ms : List Member) :
    (m.addMembers i ms).Explained :=
  .foldlM (fun _ _ => .bind (.of_ofModel _) fun _ => .bind (.of_ofModel _) fun _ =>
    .bind (.of_report _) fun _ => .of_pure _) m

theorem explained_addOwnMembers (m : Model) (globals : List Member)
    (nodes : List (Nat × Element)) : (m.addOwnMembers globals nodes).Explained :=
  .bind (explained_addMembers m rootIndex globals) fun m =>
    .foldlM (fun m (n : Nat × Element) => explained_addMembers m n.1 _) m

theorem explained_extendHierarchy (kind : DescriptionKind) (s : Model × Hierarchy) (i : Nat) :
    (extendHierarchy kind s i).Explained := by
  unfold extendHierarchy
  refine .bind (.of_ofModel _) fun d => ?_
  split
  case isTrue => exact .of_pure _
  case isFalse =>
    split
    case h_1 parent _ =>
      refine .bind (.of_ofModel _) fun p => ?_
      split
      case isTrue => exact .of_pure _
      case isFalse =>
        split
        case h_1 => exact .of_pure _
        case h_2 =>
          exact .bind (.of_report _) fun _ => .bind (.of_ofModel _) fun _ => .of_pure _
    case h_2 => exact .of_pure _

theorem explained_linearize (m : Model) (kind : DescriptionKind) :
    (m.linearize kind).Explained := by
  refine .bind (.foldlM (fun s i => explained_extendHierarchy kind s i) _) fun (n, h) => ?_
  cases ho : h.order?
  case none => simpa only [ho] using .of_ofModel (.error .cyclic)
  case some order => simpa only [ho] using .of_pure _

theorem explained_finalize (m : Model) (i : Nat) : (m.finalize i).Explained := by
  refine .bind (.of_ofModel _) fun d => ?_
  split
  case isTrue => exact .of_pure _
  case isFalse => exact .bind (.of_report _) fun _ => .of_pure _

-- A description that does not pass is told of.
theorem exists_raised_of_finalize {m m' : Model} {i : Nat}
    (hr : (m.finalize i).result = .ok (m', false)) :
    ∃ d ∈ (m.finalize i).diagnostics, d.Raises Code.ofValidation := by
  have hi : i < m.size := by
    have ⟨d, hd, _⟩ := Outcome.bind_eq_ok_iff.mp hr
    exact lt_size_of_get? (get_eq_ok_iff.mp (ofModel_eq_ok_iff.mp hd))
  have hraised := m.raises_finalize i
  rw [finalize_eq hi] at hr
  simp only [All, finalize_eq hi] at hraised ⊢
  injection hr with hr
  have hne : m.openProblems [i] ≠ [] := by simpa using congrArg Prod.snd hr
  have ⟨d, hd⟩ := List.exists_mem_of_ne_nil _ hne
  exact ⟨d, hd, hraised d hd⟩

theorem explained_finalizeAll (m : Model) : m.finalizeAll.Explained :=
  .bind (.foldlM (fun m i => .bind (m.explained_finalize i) fun _ => .of_pure _) m)
    fun m => m.explained_finalize rootIndex

theorem exists_raised_of_finalizeAll {m m' : Model}
    (hr : m.finalizeAll.result = .ok (m', false)) :
    ∃ d ∈ m.finalizeAll.diagnostics, d.Raises Code.ofValidation := by
  have ⟨n, hn, hr⟩ := Outcome.bind_eq_ok_iff.mp hr
  have ⟨d, hd, hraised⟩ := exists_raised_of_finalize hr
  exact ⟨d, diagnostics_bind hn ▸ List.mem_append_right _ hd, hraised⟩

end Model

namespace Assembler

theorem explained_concludeExperiment (m : Model) (i : Nat) :
    (concludeExperiment m i).Explained := by
  refine .bind (.of_ofModel _) fun m => .bind_after (m.explained_finalize i) ?_
  intro (m', passed) hr e he
  cases passed
  case true => exact nomatch he
  case false =>
    have ⟨d, hd, hraised⟩ := Model.exists_raised_of_finalize hr
    cases bind_eq_error_iff.mp he
    case inl he =>
      have hexplained : e.Explained [] := Explained.of_ofModel (m'.get i) e he
      exact hexplained.mono (List.nil_subset _)
    case inr he =>
      have ⟨_, _, he⟩ := he
      cases he
      exact ⟨d, List.mem_append_left _ hd, hraised⟩

theorem explained_mergeDown (m : Model) : (mergeDown m).Explained :=
  .bind (.of_ofModel _) fun m => .bind (m.explained_linearize _) fun _ =>
    .bind (.of_ofModel _) fun m => .bind (m.explained_linearize _) fun _ =>
      .foldlM explained_concludeExperiment _

theorem explained_conclude (a : Assembler) (m : Model) : (a.conclude m).Explained := by
  refine .bind (.of_ofModel _) fun m => .bind (.of_ofModel _) fun m => ?_
  refine .bind_after m.explained_finalizeAll ?_
  intro (m', passed) hr e he
  cases passed
  case true => exact nomatch he
  case false =>
    have ⟨d, hd, hraised⟩ := Model.exists_raised_of_finalizeAll hr
    cases he
    exact ⟨d, List.mem_append_left _ hd, hraised⟩

-- Grafting reports nothing at all.
theorem diagnostics_foldlM_addGraft (gs : List (String × Model)) (m : Model) :
    (gs.foldlM addGraft m).diagnostics = [] := by
  have hnone : (gs.foldlM addGraft m).All fun _ => False := .foldlM (fun _ _ _ => .of_ofExcept _) m
  exact List.eq_nil_iff_forall_not_mem.mpr hnone

theorem exists_graftRefused {gs : List (String × Model)} {m : Model} {e : AssemblyError}
    (he : (gs.foldlM addGraft m).result = .error e) :
    ∃ graft model reason, e = .graftRefused graft model reason := by
  induction gs generalizing m
  case nil => exact nomatch he
  case cons g gs ih =>
    rw [List.foldlM_cons] at he
    cases bind_eq_error_iff.mp he
    case inr he =>
      have ⟨_, _, he⟩ := he
      exact ih he
    case inl he =>
      rw [addGraft] at he
      cases hg : m.graft g.1 g.2
      case ok => exact nomatch hg ▸ he
      case error reason =>
        rw [hg] at he
        exact ⟨g.1, g.2.name, reason, (Except.error.inj he).symm⟩

-- Before anything is reported, the grafts may fail; what fails later is explained.
theorem explained_populate {m : Model} {r : Request} {ds : Declarations} {e : AssemblyError}
    (he : (populate m r ds).result = .error e) :
    (∃ graft model reason, e = .graftRefused graft model reason) ∧
        (populate m r ds).diagnostics = [] ∨
      e.Explained (populate m r ds).diagnostics := by
  have hnil := diagnostics_foldlM_addGraft r.grafts.entries m
  cases bind_eq_error_iff.mp he
  case inl hg =>
    refine .inl ⟨exists_graftRefused hg, ?_⟩
    rw [populate, bind_eq, hg]
    exact hnil
  case inr he =>
    obtain ⟨n, hn, he⟩ := he
    refine .inr ?_
    have hexplained : (do
        let p ← Placement.ofDeclarations n ds
        let m ← .ofModel p.linkParents
        m.addOwnMembers ds.members p.nodes).Explained :=
      .bind (Placement.explained_ofDeclarations n ds) fun p => .bind (.of_ofModel _) fun m =>
        m.explained_addOwnMembers ds.members p.nodes
    rw [populate, diagnostics_bind hn, hnil, List.nil_append]
    exact hexplained e he

variable {a : Assembler} {r : Request} {e : AssemblyError} {primary : Element}
  {imports : List Element}

theorem explained_of_error (ht : r.trees = primary :: imports)
    (hp : a.settings.missingPlugins primary = []) (he : (a.assemble r).result = .error e) :
    (∃ graft model reason, e = .graftRefused graft model reason) ∧
        (a.assemble r).diagnostics = (Declarations.ofTrees r.trees).2 ∨
      e.Explained (a.assemble r).diagnostics := by
  let ds := (Declarations.ofTrees r.trees).1
  obtain ⟨start, hs⟩ : ∃ start, a.emptyModel r primary imports ds.facets = .ok start :=
    ⟨_, emptyModel_eq ..⟩
  have ha : a.assemble r = (do
      report (Declarations.ofTrees r.trees).2
      let m ← populate start r ds
      a.conclude (← mergeDown m)) := by
    simp only [ds, ht] at hs ⊢
    simp only [assemble, ht, checkPlugins_of_met hp, hs, pure_bind, ofModel_ok]
  rw [ha, report_bind] at he ⊢
  cases bind_eq_error_iff.mp he
  case inl he =>
    cases explained_populate he
    case inl h =>
      refine .inl ⟨h.1, ?_⟩
      rw [bind_eq, he, h.2, List.append_nil]
    case inr h =>
      rw [bind_eq, he]
      exact .inr (h.mono (List.subset_append_right ..))
  case inr he =>
    obtain ⟨m, hm, he⟩ := he
    have hexplained : (mergeDown m >>= a.conclude).Explained :=
      .bind (explained_mergeDown m) a.explained_conclude
    rw [diagnostics_bind hm, ← List.append_assoc]
    exact .inr ((hexplained e he).mono (List.subset_append_right ..))

-- No filter keeps an error from a collector.
theorem exists_error_of_assembleInto {d : Diagnostic} (hd : d ∈ (a.assemble r).diagnostics)
    (he : d.severity = .error) (c : Collector) :
    ∃ ds, (a.assembleInto r c).2.diagnostics = c.diagnostics ++ ds ∧
      ∃ d ∈ ds, d.severity = .error := by
  refine ⟨(a.assemble r).diagnostics.filter (c.under r).filter.admits, ?_, d, ?_, he⟩
  case refine_1 =>
    rw [assembleInto_eq, run_deliver, Collector.diagnostics_emitAll, Collector.diagnostics_under]
  case refine_2 => exact List.mem_filter.mpr ⟨hd, by rw [Filter.admits, he]⟩

theorem exists_error_of_missingPlugins (ht : r.trees = primary :: imports)
    (hp : a.settings.missingPlugins primary ≠ []) :
    (∃ model plugins, (a.assemble r).result = .error (.missingPlugins model plugins)) ∧
      ∃ d ∈ (a.assemble r).diagnostics, d.severity = .error := by
  have ⟨plugin, hmem⟩ := List.exists_mem_of_ne_nil _ hp
  have hc : a.settings.checkPlugins primary =
      ⟨.error (.missingPlugins primary.modelName (a.settings.missingPlugins primary)),
        (a.settings.missingPlugins primary).map (AssemblySettings.missingPlugin primary)⟩ := by
    unfold AssemblySettings.checkPlugins
    split
    case h_1 hm => exact absurd hm hp
    case h_2 =>
      rw [report_bind]
      exact congrArg (Outcome.mk _) (List.append_nil _)
  simp only [assemble, ht, hc, bind_eq]
  exact ⟨⟨_, _, rfl⟩, _, List.mem_map_of_mem hmem, rfl⟩

end Assembler

-- The failures that errors tell of.
def AssemblyError.isTold : AssemblyError → Bool
  | missingPlugins .. | experimentFailed _ | modelFailed _ => true
  | emptyInput | graftRefused .. | refused _ => false

open Assembler

-- When plugins are missing or validation fails, the collector gets an error, whatever filter it
-- had. When a graft is refused, it gets no more than what it is told about declarations that
-- take the place of others.
theorem failures_come_with_errors (a : Assembler) (r : Request) (e : AssemblyError)
    (he : (a.assemble r).result = .error e) :
    (e.isTold = true → ∀ c, ∃ ds, (a.assembleInto r c).2.diagnostics = c.diagnostics ++ ds ∧
      ∃ d ∈ ds, d.severity = .error) ∧
    ∀ graft model reason, e = .graftRefused graft model reason →
      (a.assemble r).diagnostics = (Declarations.ofTrees r.trees).2 := by
  cases ht : r.trees
  case nil =>
    simp only [assemble, ht] at he
    cases he
    exact ⟨by simp [AssemblyError.isTold], by simp⟩
  case cons primary imports =>
    rw [← ht]
    by_cases hp : a.settings.missingPlugins primary = []
    case neg =>
      obtain ⟨⟨model, plugins, hr⟩, d, hd, hs⟩ := exists_error_of_missingPlugins ht hp
      cases he.symm.trans hr
      exact ⟨fun _ => exists_error_of_assembleInto hd hs, by simp⟩
    case pos =>
      cases explained_of_error ht hp he
      case inl h =>
        obtain ⟨⟨_, _, _, hg⟩, hd⟩ := h
        cases hg
        exact ⟨by simp [AssemblyError.isTold], fun _ _ _ _ => hd⟩
      case inr h =>
        cases e
        case experimentFailed | modelFailed =>
          obtain ⟨d, hd, hr⟩ := h
          exact ⟨fun _ => exists_error_of_assembleInto hd hr.1, by simp⟩
        case refused => exact ⟨by simp [AssemblyError.isTold], by simp⟩
        case emptyInput | missingPlugins | graftRefused => exact h.elim

-- An experiment of a type that there is none of, in a model that asks for no warnings.
def trialsRequest : Request where
  primary := "trials"
  trees := [{
    kind := .model
    name := some "trials"
    pragmas := .ofList [(Keyword.noWarning, [])]
    children := [{ kind := .experiment, name := some "run",
                   facets := .ofList [(Keyword.type, "party")] }] }]

theorem failures_come_with_errors_in_trials :
    (({} : Assembler).assemble trialsRequest).result = .error (.experimentFailed "run") ∧
      ∃ d ∈ (({} : Assembler).assembleInto trialsRequest {}).2.diagnostics,
        d.severity = .error := by
  have he : (({} : Assembler).assemble trialsRequest).result =
      .error (.experimentFailed "run") := by
    rfl
  have ⟨hexplained, _⟩ := failures_come_with_errors {} trialsRequest _ he
  have ⟨ds, hds, hd⟩ := hexplained rfl {}
  exact ⟨he, hds ▸ hd⟩

-- A model that was never finalized is asked for as a graft.
def draftsRequest : Request where
  primary := "town"
  trees := [{ kind := .model, name := some "town" }]
  grafts := .ofList [("draft", {
    descriptions := [.new .model .model "draft_model" ∅]
    nonempty := by simp
    registry := .defaults })]

-- A refused graft ends the assembly, and no diagnostic tells of it.
theorem refused_graft_untold : (({} : Assembler).assemble draftsRequest).result =
      .error (.graftRefused "draft" "draft_model" (.notFinalized "draft_model")) ∧
    (({} : Assembler).assemble draftsRequest).diagnostics = [] := by
  constructor
  all_goals rfl

end ModelAssembly
