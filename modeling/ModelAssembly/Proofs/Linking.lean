import ModelAssembly.Proofs.Grafting
import ModelAssembly.Proofs.OwnMembers
/-!
Linking: the first half of an assembly, up to the model in which every placed description has its
parent. The model consists of the root, of the grafted descriptions and, behind them, of those that
were placed.

Main statements: `root_model`, `get?_of_lt` and `get?_of_le` say what the linked model has at an
index, `result_addOwnMembers` what complementing makes of it; `nonempty_linking` that linking goes
through.
-/

namespace ModelAssembly

namespace Placement

variable {p : Placement} {es : List Element} {e : Element} {start i : Nat} {name : String}

theorem mem_named : (name, i) ∈ named start es ↔
    ∃ k e, i = start + k ∧ es[k]? = some e ∧ e.nameOrKeyword = name := by
  simp only [named, List.mem_map, Prod.mk.injEq, Prod.exists,
    List.mk_mem_zipIdx_iff_le_and_getElem?_sub]
  constructor
  case mp =>
    intro ⟨e, j, ⟨hl, he⟩, hn, hj⟩
    exact ⟨j - start, e, by omega, he, hn⟩
  case mpr =>
    intro ⟨k, e, hi, he, hn⟩
    refine ⟨e, start + k, ⟨by omega, ?_⟩, hn, hi.symm⟩
    simpa using he

theorem mem_numbered : (i, e) ∈ numbered start es ↔ ∃ k, i = start + k ∧ es[k]? = some e := by
  simp only [numbered, List.mem_map, Prod.mk.injEq, Prod.exists,
    List.mk_mem_zipIdx_iff_le_and_getElem?_sub]
  constructor
  case mp =>
    intro ⟨e', j, ⟨hl, he⟩, hj, hee⟩
    exact ⟨j - start, by omega, hee ▸ he⟩
  case mpr =>
    intro ⟨k, hi, he⟩
    refine ⟨e, start + k, ⟨by omega, ?_⟩, hi.symm, rfl⟩
    simpa using he

-- Each index carries one declaration.
theorem filter_numbered (hi : start ≤ i) :
    (numbered start es).filter (·.1 = i) = (es[i - start]?.map (i, ·)).toList := by
  induction es generalizing start
  case nil => rfl
  case cons e es ih =>
    have hc : numbered start (e :: es) = (start, e) :: numbered (start + 1) es := rfl
    rw [hc]
    by_cases he : start = i
    case pos =>
      subst he
      have hn : (numbered (start + 1) es).filter (·.1 = start) = [] := by
        simp only [List.filter_eq_nil_iff, decide_eq_true_eq]
        intro x hx hs
        have ⟨k, hk, _⟩ := mem_numbered.mp hx
        omega
      simp [hn]
    case neg =>
      have hs : i - start = (i - (start + 1)) + 1 := by omega
      have hle : start + 1 ≤ i := Nat.lt_of_le_of_ne hi he
      simp [he, ih hle, hs]

-- The edit that links a description to its parent.
def link (p : Placement) (d : Description) : Description :=
  { d with parent := some (p.parentLink d) }

theorem linkParents_eq (hn : p.nodes = numbered start es) (hs : p.model.size = start + es.length)
    (ho : ∀ i d, start ≤ i → p.model.get? i = some d → d.isFinalized = false) :
    p.linkParents =
      .ok (p.model.mapDescriptions fun i d => if start ≤ i then p.link d else d) := by
  have hw (x) (hx : x ∈ p.nodes) :
      ∃ d, p.model.get? x.1 = some d ∧ d.isFinalized = false := by
    have ⟨k, hk, he⟩ := mem_numbered.mp (hn ▸ hx)
    have hl := List.getElem?_eq_some_iff.mp he |>.1
    have ⟨d, hd⟩ := Model.get?_of_lt_size (m := p.model) (i := x.1) (by omega)
    exact ⟨d, hd, ho x.1 d (by omega) hd⟩
  have h := Model.foldlM_edit (f := fun _ d => p.link d) hw fun _ _ => rfl
  refine h.trans (congrArg Except.ok (Model.mapDescriptions_congr ?_))
  intro i d hd
  rw [Model.editsAt, hn]
  by_cases hi : start ≤ i
  case pos =>
    have hl := Model.lt_size_of_get? hd
    have hk : i - start < es.length := by omega
    simp [filter_numbered hi, hi, hk]
  case neg =>
    have hf : (numbered start es).filter (·.1 = i) = [] := by
      simp only [List.filter_eq_nil_iff, decide_eq_true_eq]
      intro x hx hxi
      have ⟨k, hk, _⟩ := mem_numbered.mp hx
      omega
    simp [hf, hi]

end Placement

namespace Declarations

-- `d` stands for `e`.
def Places (e : Element) (d : Description) : Prop :=
  ∃ origin owner micro, d = .ofDeclaration e origin owner micro

mutual

theorem places_tree_block (origin : String) (owner start : Nat) :
    (t : DeclarationTree) → List.Forall₂ Places t.preorder (t.block owner start origin)
  | .node _ nested =>
    .cons ⟨origin, owner, _, rfl⟩ (places_blockAll origin start (start + 1) nested)

theorem places_blockAll (origin : String) (owner start : Nat) :
    (ts : List DeclarationTree) →
      List.Forall₂ Places (DeclarationTree.preorderAll ts)
        (DeclarationTree.blockAll owner start origin ts)
  | [] => .nil
  | t :: ts =>
    List.rel_append (places_tree_block origin owner start t)
      (places_blockAll origin owner (start + t.preorder.length) ts)

end

theorem places_block (start : Nat) (ds : List Declaration) :
    List.Forall₂ Places (placed ds) (block start ds) := by
  induction ds generalizing start
  case nil => exact .nil
  case cons d ds hi => exact List.rel_append (places_tree_block ..) (hi _)

end Declarations

namespace Assembler

-- The root before anything is grafted or placed.
def freshRoot (a : Assembler) (primary : Element) (facets : Facets) : Description :=
  { Description.new .model .model primary.modelName facets with
    parent := some (a.registry.modelParent (facets.get? Keyword.parent))
    origin := some primary.modelName
    provenance := primary.provenance }

theorem emptyModel_eq (a : Assembler) (r : Request) (primary : Element) (imports : List Element)
    (facets : Facets) :
    a.emptyModel r primary imports facets =
      .ok {
        descriptions := [a.freshRoot primary facets]
        nonempty := by simp
        knownAs := some r.primary
        projectPath := r.projectPath
        modelPath := r.modelPath
        importedModels := .ofList (imports.map (·.modelName))
        alternatePaths := .ofList r.files
        registry := a.registry } := rfl

-- A run of the assembly of `r` up to the model in which everything is placed.
structure Placing (a : Assembler) (r : Request) where
  primary : Element
  imports : List Element
  trees_eq : r.trees = primary :: imports
  start : Model
  start_eq : a.emptyModel r primary imports (Declarations.ofTrees r.trees).1.facets = .ok start
  grafted : Model
  grafted_eq : (r.grafts.entries.foldlM addGraft start).result = .ok grafted
  placement : Placement
  placement_eq :
    (Placement.ofDeclarations grafted (Declarations.ofTrees r.trees).1).result = .ok placement

-- A run up to the model in which all parents are linked.
structure Linking (a : Assembler) (r : Request) extends Placing a r where
  model : Model
  model_eq : placement.linkParents = .ok model

variable {a : Assembler} {r : Request}

namespace Placing

open Declarations

variable (l : Placing a r)

-- The declarations at the top of the trees, those that others supersede left out.
def declared (_ : Placing a r) : List Declaration := (Declarations.ofTrees r.trees).1.all

-- The index of the first placed description.
def base : Nat := l.grafted.size

theorem start_eq_fresh : l.start.descriptions =
    [a.freshRoot l.primary (Declarations.ofTrees r.trees).1.facets] := by
  have h := l.start_eq
  rw [emptyModel_eq] at h
  exact Except.ok.inj h ▸ rfl

theorem grafted_eq_withGrafts : l.grafted = l.start.withGrafts r.grafts.entries :=
  Model.foldlM_addGraft_eq_ok l.grafted_eq

theorem placement_eq_ofAll : l.placement =
    { Placement.ofAll l.grafted l.declared with
      model := { (Placement.ofAll l.grafted l.declared).model with
        microSpeciesNames := .ofList (Placement.ofAll l.grafted l.declared).indices.keys } } := by
  have ho : l.grafted.root.isFinalized = false := by
    have hs : l.start.root = a.freshRoot l.primary (Declarations.ofTrees r.trees).1.facets := by
      simp [Model.root, l.start_eq_fresh]
    rw [grafted_eq_withGrafts, Model.root_withGrafts, hs]
    rfl
  have hd (d) (h : d ∈ l.declared) : d.element.isDeclaration = true := isDeclaration_of_mem_all h
  have h := l.placement_eq
  rw [Placement.ofDeclarations_eq hd ho] at h
  exact (Except.ok.inj h).symm

theorem size_start : l.start.size = 1 := by
  simp [Model.size, l.start_eq_fresh]

theorem root_start :
    l.start.root = a.freshRoot l.primary (Declarations.ofTrees r.trees).1.facets := by
  simp [Model.root, l.start_eq_fresh]

theorem base_eq : l.base = 1 + (Model.graftBlock 1 r.grafts.entries).length := by
  rw [base, grafted_eq_withGrafts, Model.size_withGrafts, size_start]

theorem model_placement : l.placement.model =
    { l.grafted.grow Model.rootIndex (DeclarationTree.roots l.base (l.declared.map tree))
        (block l.base l.declared) with
      microSpeciesNames := .ofList ((OrderedMap.ofList <|
        Placement.named l.base (placed l.declared)).keys) } := by
  rw [placement_eq_ofAll]
  rfl

theorem indices_placement :
    l.placement.indices = .ofList (Placement.named l.base (placed l.declared)) := by
  rw [placement_eq_ofAll]
  rfl

theorem nodes_placement : l.placement.nodes = Placement.numbered l.base (placed l.declared) := by
  rw [placement_eq_ofAll]
  rfl

theorem size_placement : l.placement.model.size = l.base + (placed l.declared).length := by
  rw [model_placement, ← length_block l.base]
  exact Model.size_grow ..

-- What stands at an index as soon as everything is placed.
theorem get?_placement_of_le {i : Nat} (h : l.base ≤ i) :
    l.placement.model.get? i = (block l.base l.declared)[i - l.base]? := by
  rw [model_placement]
  exact Model.get?_grow_right _ _ h

-- Linking goes through, and changes nothing but the parents of what was placed.
theorem linkParents_eq : l.placement.linkParents =
    .ok (l.placement.model.mapDescriptions fun i d =>
      if l.base ≤ i then l.placement.link d else d) := by
  have ho (i d) (hi : l.base ≤ i) (hd : l.placement.model.get? i = some d) :
      d.isFinalized = false := by
    rw [get?_placement_of_le l hi] at hd
    have ⟨hl, he⟩ := List.getElem?_eq_some_iff.mp hd
    have hp := places_block l.base l.declared
    have ⟨_, _, _, hx⟩ := hp.get (hp.length_eq ▸ hl) hl
    exact he ▸ congrArg Description.isFinalized hx
  exact Placement.linkParents_eq l.nodes_placement l.size_placement ho

theorem base_pos : 0 < l.base := by
  rw [base_eq]
  omega

end Placing

namespace Linking

open Declarations Placing

variable (l : Linking a r)

theorem model_eq_map : l.model = l.placement.model.mapDescriptions fun i d =>
    if l.base ≤ i then l.placement.link d else d :=
  Except.ok.inj (l.model_eq.symm.trans l.linkParents_eq)

theorem size_model : l.model.size = l.base + (placed l.declared).length := by
  rw [model_eq_map, Model.size_mapDescriptions, size_placement]

theorem registry_model : l.model.registry = a.registry := by
  rw [model_eq_map, model_placement, Model.registry_mapDescriptions]
  have hs : l.start.registry = a.registry := by
    have h := l.start_eq
    rw [emptyModel_eq] at h
    exact Except.ok.inj h ▸ rfl
  rw [← hs, grafted_eq_withGrafts]
  rfl

theorem get?_of_le {i : Nat} (h : l.base ≤ i) :
    l.model.get? i = (block l.base l.declared)[i - l.base]?.map l.placement.link := by
  rw [model_eq_map, Model.get?_mapDescriptions, l.get?_placement_of_le h]
  simp [h]

theorem get?_of_lt {i : Nat} (h0 : 0 < i) (h : i < l.base) :
    l.model.get? i = (Model.graftBlock 1 r.grafts.entries)[i - 1]? := by
  have hg : l.grafted.get? i = (Model.graftBlock 1 r.grafts.entries)[i - 1]? := by
    have hs := l.size_start
    rw [grafted_eq_withGrafts]
    refine (Model.get?_grow_right _ _ (hs ▸ h0)).trans ?_
    rw [hs]
  have hp : l.placement.model.get? i = l.grafted.get? i := by
    rw [model_placement]
    exact Model.get?_grow_left _ _ h (Nat.ne_of_gt h0)
  rw [model_eq_map, Model.get?_mapDescriptions, hp, hg]
  simp [Nat.not_le.mpr h]

theorem root_model : l.model.root =
    { a.freshRoot l.primary (Declarations.ofTrees r.trees).1.facets with
      micro := Model.graftRoots 1 r.grafts.entries ++
        DeclarationTree.roots l.base (l.declared.map tree) } := by
  have hb : ¬ l.base ≤ Model.rootIndex := by
    have h := l.base_eq
    simp only [Model.rootIndex]
    omega
  have hg : l.grafted.root = { a.freshRoot l.primary (Declarations.ofTrees r.trees).1.facets with
      micro := Model.graftRoots 1 r.grafts.entries } := by
    rw [grafted_eq_withGrafts, Model.root_withGrafts, size_start, root_start]
    rfl
  have hp : l.placement.model.root = { l.grafted.root with
      micro := l.grafted.root.micro ++ DeclarationTree.roots l.base (l.declared.map tree) } := by
    rw [model_placement]
    exact Model.root_grow ..
  rw [model_eq_map, Model.root_mapDescriptions, if_neg hb, hp, hg]

-- Placed descriptions stand for declarations, and are linked to a parent.
theorem places_of_le {i : Nat} {d : Description} (h : l.base ≤ i) (hd : l.model.get? i = some d) :
    ∃ e d₀, (placed l.declared)[i - l.base]? = some e ∧ Places e d₀ ∧ d = l.placement.link d₀ := by
  rw [get?_of_le l h] at hd
  have ⟨d₀, hb, he⟩ := Option.map_eq_some_iff.mp hd
  have ⟨hl, hx⟩ := List.getElem?_eq_some_iff.mp hb
  have hp := places_block l.base l.declared
  have hl' := hp.length_eq ▸ hl
  exact ⟨_, d₀, List.getElem?_eq_getElem hl', hx ▸ hp.get hl' hl, he.symm⟩

-- The members that are declared directly under the declaration behind an index.
def ownMembers (i : Nat) : List Member :=
  ((placed l.declared)[i - l.base]?.map Member.declaredIn).getD []

-- The linked model with the members that were declared for each description.
def complemented : Model :=
  l.model.mapDescriptions fun i d =>
    if i = Model.rootIndex then d.withMembers (Declarations.ofTrees r.trees).1.members
    else if l.base ≤ i then d.withMembers (l.ownMembers i)
    else d

variable {l} in
theorem get?_complemented {i : Nat} {d : Description} (hi : l.base ≤ i)
    (hd : l.model.get? i = some d) :
    l.complemented.get? i = some (d.withMembers (l.ownMembers i)) := by
  have h0 : i ≠ Model.rootIndex := Nat.ne_of_gt (Nat.lt_of_lt_of_le l.base_pos hi)
  rw [complemented, Model.get?_mapDescriptions, hd, Option.map_some, if_neg h0, if_pos hi]

theorem result_addOwnMembers :
    (l.model.addOwnMembers (Declarations.ofTrees r.trees).1.members l.placement.nodes).result =
      .ok l.complemented := by
  have hr : l.model.root.isFinalized = false := l.root_model ▸ rfl
  have hn (n) (h : n ∈ l.placement.nodes) :
      ∃ d, l.model.get? n.1 = some d ∧ d.isFinalized = false := by
    obtain ⟨i, e⟩ := n
    obtain ⟨k, hi, he⟩ := Placement.mem_numbered.mp (l.nodes_placement ▸ h)
    have hl := List.getElem?_eq_some_iff.mp he |>.1
    have hb : l.base ≤ i := by omega
    obtain ⟨d, hd⟩ := Model.get?_of_lt_size (m := l.model) (i := i) (by rw [size_model]; omega)
    obtain ⟨_, _, _, ⟨_, _, _, hd₀⟩, hdl⟩ := places_of_le l hb hd
    exact ⟨d, hd, hdl ▸ hd₀ ▸ rfl⟩
  rw [Model.addOwnMembers_eq hr hn, complemented]
  congr 1
  apply Model.mapDescriptions_congr
  intro i d _
  have hb := l.base_pos
  rw [Model.ownMembers, nodes_placement]
  by_cases hi : l.base ≤ i
  case pos =>
    have h0 : ¬ i = Model.rootIndex := Nat.ne_of_gt (Nat.lt_of_lt_of_le hb hi)
    simp only [h0, hi, Placement.filter_numbered hi, ownMembers, if_true, if_false, List.nil_append]
    cases (placed l.declared)[i - l.base]? <;> simp
  case neg =>
    have hf : (Placement.numbered l.base (placed l.declared)).filter (·.1 = i) = [] := by
      simp only [List.filter_eq_nil_iff, decide_eq_true_eq]
      intro x hx hxi
      obtain ⟨k, hk, _⟩ := Placement.mem_numbered.mp hx
      omega
    rw [hf]
    by_cases h0 : i = Model.rootIndex <;> simp [hi, h0, Description.withMembers]

end Linking

-- Linking goes through as soon as there is a tree and all grafts are finalized.
theorem nonempty_linking (a : Assembler) {r : Request} {primary : Element} {imports : List Element}
    (ht : r.trees = primary :: imports)
    (hg : ∀ g ∈ r.grafts.entries, g.2.root.isFinalized = true) : Nonempty (Linking a r) := by
  have ⟨start, hs, hr⟩ : ∃ start, a.emptyModel r primary imports
      (Declarations.ofTrees r.trees).1.facets = .ok start ∧ start.root.isFinalized = false :=
    ⟨_, emptyModel_eq .., rfl⟩
  have hgr := Model.foldlM_addGraft_of_finalized hr hg
  have ho : (start.withGrafts r.grafts.entries).root.isFinalized = false := by
    rw [Model.root_withGrafts]
    exact hr
  have hd (D) (h : D ∈ (Declarations.ofTrees r.trees).1.all) : D.element.isDeclaration = true :=
    Declarations.isDeclaration_of_mem_all h
  have hp := Placement.ofDeclarations_eq hd ho
  let l : Placing a r :=
    ⟨primary, imports, ht, start, hs, _, hgr, _, congrArg Outcome.result hp⟩
  exact ⟨{ l with model := _, model_eq := l.linkParents_eq }⟩

end Assembler
end ModelAssembly
