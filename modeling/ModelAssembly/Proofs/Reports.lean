import ModelAssembly.Assembly.Assembler
import ModelAssembly.Proofs.Outcome
/-!
What the stages of an assembly report. Apart from the notes that a declaration supersedes an
imported one, all of it is errors, and each stage has codes of its own.

Main statements: `raises_populate`, `raises_mergeDown` and `raises_conclude` give the codes of the
stages, `tellsOf_of_mem_ofTrees` says which declarations the collisions at the top of trees are
about.
-/

namespace ModelAssembly

namespace Diagnostic

-- An error with one of the codes.
def Raises (codes : List Code) (d : Diagnostic) : Prop :=
  d.severity = .error ∧ ∃ c ∈ codes, d.code = some c

theorem Raises.mono {cs ds : List Code} {d : Diagnostic} (h : d.Raises cs) (hs : cs ⊆ ds) :
    d.Raises ds :=
  have ⟨he, c, hc, hd⟩ := h
  ⟨he, c, hs hc, hd⟩

end Diagnostic

namespace Outcome

variable {α β σ : Type} {P Q : Diagnostic → Prop}

-- Whatever `x` reports is `P`, whether it fails or not.
def All (P : Diagnostic → Prop) (x : Outcome α) : Prop := ∀ d ∈ x.diagnostics, P d

namespace All

theorem mono {x : Outcome α} (h : x.All P) (hi : ∀ d, P d → Q d) : x.All Q :=
  fun d hd => hi d (h d hd)

theorem of_pure (a : α) : (pure a : Outcome α).All P :=
  fun _ hd => absurd hd List.not_mem_nil

theorem of_fail (e : AssemblyError) : (fail e : Outcome α).All P :=
  fun _ hd => absurd hd List.not_mem_nil

theorem of_ofExcept (r : Except AssemblyError α) : (ofExcept r).All P :=
  fun _ hd => absurd hd List.not_mem_nil

theorem of_ofModel (r : Except ModelError α) : (ofModel r).All P := of_ofExcept _

theorem of_report {ds : List Diagnostic} (h : ∀ d ∈ ds, P d) : (report ds).All P := h

theorem bind {x : Outcome α} {f : α → Outcome β} (hx : x.All P)
    (hf : ∀ a, x.result = .ok a → (f a).All P) : (x >>= f).All P := by
  intro d hd
  rw [bind_eq] at hd
  split at hd
  case h_1 a ha => exact (List.mem_append.mp hd).elim (hx d) (hf a ha d)
  case h_2 => exact hx d hd

theorem foldlM {f : σ → β → Outcome σ} {l : List β} (hf : ∀ s, ∀ x ∈ l, (f s x).All P) (s : σ) :
    (l.foldlM f s).All P := by
  induction l generalizing s
  case nil => exact of_pure s
  case cons x l hi =>
    rw [List.foldlM_cons]
    exact bind (hf s x List.mem_cons_self) fun t _ =>
      hi (fun t y hy => hf t y (List.mem_cons_of_mem x hy)) t

end All
end Outcome

open Outcome Diagnostic

theorem AssemblySettings.raises_checkPlugins (s : AssemblySettings) (primary : Element) :
    (s.checkPlugins primary).All (Raises [.missingPlugin]) := by
  unfold checkPlugins
  split
  case h_1 => exact .of_pure ()
  case h_2 missing _ =>
    refine .bind (.of_report ?_) fun _ _ => .of_fail _
    intro d hd
    have ⟨plugin, _, he⟩ := List.mem_map.mp hd
    exact he ▸ ⟨rfl, .missingPlugin, by simp, rfl⟩

namespace Declarations

-- The kind of description that a declaration at the top of a tree is for.
def kindOf (e : Element) : DescriptionKind :=
  if e.kind.isExperiment then .experiment else .species

-- `d` tells that a declaration of `trees` takes the place of another.
def TellsOf (trees : List Element) (d : Diagnostic) : Prop :=
  ∃ tree ∈ trees, ∃ scope ∈ scopes tree, ∃ e ∈ scope.declarations, ∃ previous,
    d = collision (kindOf e) e.nameOrKeyword tree.modelName previous e

section

variable {P : Diagnostic → Prop} {origin : String} {ds : Declarations × List Diagnostic}

theorem all_foldl_declare {kind : DescriptionKind} {es : List Element}
    (table : OrderedMap String Declaration × List Diagnostic) (ht : ∀ d ∈ table.2, P d)
    (hes : ∀ e ∈ es, ∀ previous, P (collision kind e.nameOrKeyword origin previous e)) :
    ∀ d ∈ (es.foldl (declare kind origin) table).2, P d := by
  induction es generalizing table
  case nil => exact ht
  case cons e es hi =>
    refine hi _ ?_ fun x hx => hes x (List.mem_cons_of_mem e hx)
    intro d hd
    cases List.mem_append.mp hd
    case inl hd => exact ht d hd
    case inr hd =>
      have ⟨previous, _, he⟩ := Option.map_eq_some_iff.mp (Option.mem_toList.mp hd)
      exact he ▸ hes e List.mem_cons_self previous

theorem all_addScope {scope : Element} (hd : ∀ d ∈ ds.2, P d)
    (he : ∀ e ∈ scope.declarations, ∀ previous,
      P (collision (kindOf e) e.nameOrKeyword origin previous e)) :
    ∀ d ∈ (addScope origin ds scope).2, P d := by
  have hspecies : ∀ d ∈ (scope.speciesDeclarations.foldl (declare .species origin)
      (ds.1.species, ds.2)).2, P d := by
    refine all_foldl_declare _ hd fun e hm previous => ?_
    have hk : kindOf e = .species := by
      have hkind : e.kind = .species ∨ e.kind = .grid := by
        simpa [Element.speciesDeclarations, ← and_or_left] using (List.mem_append.mp hm).imp
          (fun h => (List.mem_filter.mp h).2) fun h => (List.mem_filter.mp h).2
      cases hkind
      all_goals simp_all [kindOf, ElementKind.isExperiment]
    exact hk ▸ he e (List.mem_append_left _ hm) previous
  refine all_foldl_declare (ds.1.experiments, _) hspecies fun e hm previous => ?_
  have hk : kindOf e = .experiment := by simp [kindOf, (List.mem_filter.mp hm).2]
  exact hk ▸ he e (List.mem_append_right _ hm) previous

theorem all_foldl_addScope {ss : List Element} (hd : ∀ d ∈ ds.2, P d)
    (he : ∀ scope ∈ ss, ∀ e ∈ scope.declarations, ∀ previous,
      P (collision (kindOf e) e.nameOrKeyword origin previous e)) :
    ∀ d ∈ (ss.foldl (addScope origin) ds).2, P d := by
  induction ss generalizing ds
  case nil => exact hd
  case cons s ss hi =>
    exact hi (all_addScope hd (he s List.mem_cons_self))
      fun x hx => he x (List.mem_cons_of_mem s hx)

end

theorem tellsOf_of_mem_ofTrees {trees : List Element} {d : Diagnostic}
    (hd : d ∈ (ofTrees trees).2) : TellsOf trees d := by
  have hall (ts : List Element) (hts : ts ⊆ trees) (ds : Declarations × List Diagnostic)
      (hds : ∀ d ∈ ds.2, TellsOf trees d) : ∀ d ∈ (ts.foldl addTree ds).2, TellsOf trees d := by
    induction ts generalizing ds
    case nil => exact hds
    case cons t ts hi =>
      have ⟨ht, hts⟩ := List.cons_subset.mp hts
      apply hi hts
      apply all_foldl_addScope hds
      exact fun scope hs e he previous => ⟨t, ht, scope, hs, e, he, previous, rfl⟩
  exact hall trees.reverse (fun _ => List.mem_reverse.mp) _ (by simp) d hd

end Declarations

theorem DeclarationTree.raises_of_mem_duplicates {e : Element} {d : Diagnostic}
    (hd : d ∈ duplicates e) : d.Raises [.duplicateMicro] := by
  have hall (es : List Element) (s : OrderedMap String Element × List Diagnostic)
      (hs : ∀ d ∈ s.2, d.Raises [.duplicateMicro]) :
      ∀ d ∈ (es.foldl (fun seen x => (seen.1.insert x.nameOrKeyword x,
        seen.2 ++ ((seen.1.get? x.nameOrKeyword).map fun previous =>
          duplicate e previous x).toList)) s).2, d.Raises [.duplicateMicro] := by
    induction es generalizing s
    case nil => exact hs
    case cons x es hi =>
      apply hi
      intro d hd
      cases List.mem_append.mp hd
      case inl hd => exact hs d hd
      case inr hd =>
        obtain ⟨previous, _, he⟩ := Option.map_eq_some_iff.mp (Option.mem_toList.mp hd)
        exact he ▸ ⟨rfl, .duplicateMicro, by simp, rfl⟩
  exact hall e.declarations (∅, []) (by simp) d hd

namespace Placement

mutual

theorem raises_place (owner : Nat) (origin : String) (p : Placement) :
    (t : DeclarationTree) → (place owner origin p t).All (Raises [.duplicateMicro])
  | .node e nested => by
    rw [place]
    split
    case h_1 => exact .of_pure p
    case h_2 =>
      refine .bind (.of_ofModel _) fun q _ => .bind (.of_report ?_) fun _ _ =>
        raises_placeAll p.model.size origin q nested
      exact fun d => DeclarationTree.raises_of_mem_duplicates

theorem raises_placeAll (owner : Nat) (origin : String) (p : Placement) :
    (ts : List DeclarationTree) → (placeAll owner origin p ts).All (Raises [.duplicateMicro])
  | [] => by
    rw [placeAll]
    exact .of_pure p
  | t :: ts => by
    rw [placeAll]
    exact .bind (raises_place owner origin p t) fun q _ => raises_placeAll owner origin q ts

end

theorem raises_ofDeclarations (m : Model) (ds : Declarations) :
    (ofDeclarations m ds).All (Raises [.duplicateMicro]) :=
  .bind (.foldlM (fun p d _ => raises_place _ d.origin p _) _) fun _ _ => .of_pure _

end Placement

namespace Model

theorem raises_addMembers (m : Model) (i : Nat) (ms : List Member) :
    (m.addMembers i ms).All (Raises [.duplicateMember]) := by
  refine .foldlM (fun m member _ => ?_) m
  refine .bind (.of_ofModel _) fun d _ => .bind (.of_ofModel _) fun changed _ =>
    .bind (.of_report ?_) fun _ _ => .of_pure _
  intro x hx
  have ⟨previous, _, he⟩ := Option.map_eq_some_iff.mp (Option.mem_toList.mp hx)
  exact he ▸ ⟨rfl, .duplicateMember, by simp, rfl⟩

theorem raises_addOwnMembers (m : Model) (globals : List Member) (nodes : List (Nat × Element)) :
    (m.addOwnMembers globals nodes).All (Raises [.duplicateMember]) :=
  .bind (raises_addMembers m rootIndex globals) fun m _ =>
    .foldlM (fun m n _ => raises_addMembers m n.1 _) m

theorem raises_extendHierarchy (kind : DescriptionKind) (s : Model × Hierarchy) (i : Nat) :
    (extendHierarchy kind s i).All (Raises [.inconsistentHierarchy]) := by
  unfold extendHierarchy
  refine .bind (.of_ofModel _) fun d _ => ?_
  split
  case isTrue => exact .of_pure _
  case isFalse =>
    split
    case h_1 parent _ =>
      refine .bind (.of_ofModel _) fun p _ => ?_
      split
      case isTrue => exact .of_pure _
      case isFalse =>
        split
        case h_1 => exact .of_pure _
        case h_2 =>
          refine .bind (.of_report ?_) fun _ _ => .bind (.of_ofModel _) fun _ _ => .of_pure _
          intro x hx
          exact List.mem_singleton.mp hx ▸ ⟨rfl, .inconsistentHierarchy, by simp, rfl⟩
    case h_2 => exact .of_pure _

theorem raises_linearize (m : Model) (kind : DescriptionKind) :
    (m.linearize kind).All (Raises [.inconsistentHierarchy]) := by
  refine .bind (.foldlM (fun s i _ => raises_extendHierarchy kind s i) _) fun (n, h) _ => ?_
  cases ho : h.order?
  case none => simpa only [ho] using .of_fail _
  case some order => simpa only [ho] using .of_pure _

end Model

-- The codes of what is wrong with a description when it is validated.
def Code.ofValidation : List Code := [.abstractAction, .extendsExperiment, .experimentType]

theorem Description.raises_of_mem_problems {d : Description} {parent : Option Description}
    {x : Diagnostic} (hx : x ∈ d.problems parent) : x.Raises Code.ofValidation := by
  simp only [problems, List.mem_append, Option.mem_toList, List.mem_map] at hx
  rcases hx with (hx | ⟨action, _, hx⟩) | hx
  · have ⟨p, _, hx⟩ := Option.map_eq_some_iff.mp hx
    exact hx ▸ ⟨rfl, .extendsExperiment, by simp [Code.ofValidation], rfl⟩
  · exact hx ▸ ⟨rfl, .abstractAction, by simp [Code.ofValidation], rfl⟩
  · have ⟨type, _, hx⟩ := Option.map_eq_some_iff.mp hx
    exact hx ▸ ⟨rfl, .experimentType, by simp [Code.ofValidation], rfl⟩

theorem Model.raises_finalize (m : Model) (i : Nat) :
    (m.finalize i).All (Raises Code.ofValidation) := by
  refine .bind (.of_ofModel _) fun d _ => ?_
  split
  case isTrue => exact .of_pure _
  case isFalse =>
    exact .bind (.of_report fun _ => Description.raises_of_mem_problems) fun _ _ => .of_pure _

theorem Model.raises_finalizeAll (m : Model) : m.finalizeAll.All (Raises Code.ofValidation) :=
  .bind (.foldlM (fun m i _ => .bind (m.raises_finalize i) fun _ _ => .of_pure _) m)
    fun m _ => m.raises_finalize Model.rootIndex

namespace Assembler

theorem raises_populate (m : Model) (r : Request) (ds : Declarations) :
    (populate m r ds).All (Raises [.duplicateMicro, .duplicateMember]) := by
  refine .bind (.foldlM (fun _ _ _ => .of_ofExcept _) m) fun m _ => ?_
  refine .bind (.mono (Placement.raises_ofDeclarations m ds) fun _ h => h.mono (by simp)) ?_
  intro p _
  refine .bind (.of_ofModel _) fun m _ => ?_
  exact .mono (m.raises_addOwnMembers ds.members p.nodes) fun _ h => h.mono (by simp)

theorem raises_concludeExperiment (m : Model) (i : Nat) :
    (concludeExperiment m i).All (Raises Code.ofValidation) := by
  refine .bind (.of_ofModel _) fun m _ => .bind (m.raises_finalize i) fun (m, passed) _ => ?_
  cases passed
  case true => exact .of_pure m
  case false => exact .bind (.of_ofModel (m.get i)) fun _ _ => .of_fail _

theorem raises_mergeDown (m : Model) :
    (mergeDown m).All (Raises (.inconsistentHierarchy :: Code.ofValidation)) := by
  have hlinearize (m : Model) (kind : DescriptionKind) :
      (m.linearize kind).All (Raises (.inconsistentHierarchy :: Code.ofValidation)) :=
    .mono (m.raises_linearize kind) fun _ h => h.mono (by simp)
  refine .bind (.of_ofModel _) fun m _ => .bind (hlinearize m _) fun _ _ => ?_
  refine .bind (.of_ofModel _) fun m _ => .bind (hlinearize m _) fun _ _ => ?_
  exact .foldlM (fun m i _ => .mono (raises_concludeExperiment m i)
    fun _ h => h.mono (List.subset_cons_self ..)) _

theorem raises_conclude (a : Assembler) (m : Model) :
    (a.conclude m).All (Raises Code.ofValidation) := by
  refine .bind (.of_ofModel _) fun m _ => .bind (.of_ofModel _) fun m _ => ?_
  refine .bind m.raises_finalizeAll fun (m, passed) _ => ?_
  cases passed
  case true => exact .of_pure m
  case false => exact .of_fail _

end Assembler
end ModelAssembly
