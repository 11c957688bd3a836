import ModelAssembly.Assembly.Placement
import ModelAssembly.Proofs.Arena
import ModelAssembly.Proofs.Declarations
import ModelAssembly.Proofs.DeclarationTree
/-!
Placement in closed form. The descriptions of a tree of declarations stand in one block, each before
those that are nested in it, and the owner of the tree gets the index of the first.

Main statements: `place_eq` for one tree and `ofDeclarations_eq` for all declarations of a model say
which model, names and nodes placement comes to, and with which diagnostics; it never fails.
-/

namespace ModelAssembly

namespace Description

-- What stands for a declaration as soon as it and all that is nested in it are placed.
def ofDeclaration (e : Element) (origin : String) (owner : Nat) (micro : List Nat) : Description :=
  { new ((DescriptionKind.ofElement? e.kind).getD .species) e.kind e.nameOrKeyword e.facets with
    micro
    owner := some owner
    origin := some origin
    provenance := e.provenance }

theorem shell?_of_isDeclaration {e : Element} (h : e.isDeclaration = true) (origin : String)
    (owner : Nat) :
    shell? e = some { ofDeclaration e origin owner [] with owner := none, origin := none } := by
  simp only [Element.isDeclaration, Bool.or_eq_true] at h
  cases hk : e.kind <;>
    simp_all [shell?, ofDeclaration, DescriptionKind.ofElement?, new, ElementKind.isSpecies,
      ElementKind.isExperiment]

end Description

namespace Model

variable {m : Model} {owner : Nat} {o d : Description}

-- Appends `ds`, and the indices `roots` to what `owner` contains.
def grow (m : Model) (owner : Nat) (roots : List Nat) (ds : List Description) : Model :=
  (m.alter owner fun o => { o with micro := o.micro ++ roots }).append ds

theorem size_append (m : Model) (ds : List Description) :
    (m.append ds).size = m.size + ds.length := by
  simp [append, size]

theorem get?_append_left {i : Nat} (ds : List Description) (h : i < m.size) :
    (m.append ds).get? i = m.get? i :=
  List.getElem?_append_left h

theorem get?_append_right {i : Nat} (ds : List Description) (h : m.size ≤ i) :
    (m.append ds).get? i = ds[i - m.size]? :=
  List.getElem?_append_right h

theorem size_grow (m : Model) (owner : Nat) (roots : List Nat) (ds : List Description) :
    (m.grow owner roots ds).size = m.size + ds.length := by
  simp [grow, size_append]

@[simp]
theorem root_append (m : Model) (ds : List Description) : (m.append ds).root = m.root :=
  root_eq_iff.mpr ((get?_append_left ds m.size_pos).trans (get?_rootIndex m))

theorem root_grow (m : Model) (roots : List Nat) (ds : List Description) :
    (m.grow rootIndex roots ds).root = { m.root with micro := m.root.micro ++ roots } := by
  simp [grow, alter]

theorem get?_grow_of_lt {i : Nat} (m : Model) (owner : Nat) (roots : List Nat)
    (ds : List Description) (h : i < m.size) : (m.grow owner roots ds).get? i =
      (m.get? i).map fun d => if i = owner then { d with micro := d.micro ++ roots } else d := by
  rw [grow, get?_append_left _ (by simpa using h), get?_alter]

theorem get?_grow_left {i : Nat} (roots : List Nat) (ds : List Description) (h : i < m.size)
    (hi : i ≠ owner) : (m.grow owner roots ds).get? i = m.get? i := by
  simp [get?_grow_of_lt _ _ _ _ h, hi]

theorem get?_grow_right {i : Nat} (roots : List Nat) (ds : List Description) (h : m.size ≤ i) :
    (m.grow owner roots ds).get? i = ds[i - m.size]? := by
  refine (get?_append_right _ (by simpa using h)).trans ?_
  rw [size_alter]

theorem append_append (m : Model) (ds es : List Description) :
    (m.append ds).append es = m.append (ds ++ es) := by
  simp [append]

theorem alter_append {i : Nat} (f : Description → Description) (ds : List Description)
    (h : i < m.size) : (m.append ds).alter i f = (m.alter i f).append ds := by
  have hd : ds.mapIdx (fun j d => if j + m.descriptions.length = i then f d else d) = ds := by
    apply mapIdx_eq_self
    intro j d _
    have hj : ¬ j + m.descriptions.length = i := by simp only [size] at h; omega
    simp [hj]
  simp [append, alter, mapDescriptions, List.mapIdx_append, hd]

theorem alter_append_size (f : Description → Description) (d : Description) :
    (m.append [d]).alter m.size f = m.append [f d] := by
  have hm : m.descriptions.mapIdx (fun j d => if j = m.size then f d else d) = m.descriptions := by
    apply mapIdx_eq_self
    intro j e he
    have hj : j ≠ m.size := Nat.ne_of_lt (lt_size_of_get? he)
    simp [hj]
  have hs : m.descriptions.length = m.size := rfl
  simp [append, alter, mapDescriptions, List.mapIdx_append, hm, hs]

theorem add_eq (h : m.get? owner = some o) (ho : o.isFinalized = false) (d : Description) :
    m.add owner d = .ok (m.grow owner [m.size] [{ d with owner := some owner }]) := by
  simp only [add, h, Description.addMicro, Description.edit_of_open ho]
  have hs := set_eq_alter h fun o => { o with micro := o.micro ++ [m.size] }
  exact congrArg (fun n : Model => Except.ok (n.append [{ d with owner := some owner }])) hs

theorem add_of_none (ho : m.get? owner = none) : m.add owner d = .error (.unknown owner) := by
  rw [add, ho]

theorem add_of_finalized (ho : m.get? owner = some o) (hf : o.isFinalized = true) :
    m.add owner d = .error (.finalized o.name) := by
  simp [add, ho, Description.addMicro, Description.edit, hf, bind, Except.bind]

theorem add_eq_error_iff {e : ModelError} : m.add owner d = .error e ↔
    m.get? owner = none ∧ e = .unknown owner ∨
      ∃ o, m.get? owner = some o ∧ o.isFinalized = true ∧ e = .finalized o.name := by
  constructor
  case mp =>
    intro h
    cases ho : m.get? owner
    case none =>
      cases h.symm.trans (add_of_none ho)
      exact .inl ⟨rfl, rfl⟩
    case some o =>
      cases hf : o.isFinalized
      case false => cases h.symm.trans (add_eq ho hf d)
      case true =>
        cases h.symm.trans (add_of_finalized ho hf)
        exact .inr ⟨o, rfl, hf, rfl⟩
  case mpr =>
    rintro (⟨ho, rfl⟩ | ⟨o, ho, hf, rfl⟩)
    case inl => exact add_of_none ho
    case inr => exact add_of_finalized ho hf

@[simp]
theorem grow_nil (m : Model) (owner : Nat) : m.grow owner [] [] = m := by
  have ha : m.alter owner (fun o => { o with micro := o.micro ++ [] }) = m :=
    mapDescriptions_id fun i d _ => by simp
  rw [grow, ha]
  simp [append]

-- Growing twice below one owner.
theorem grow_grow (h : owner < m.size) (r₁ r₂ : List Nat) (d₁ d₂ : List Description) :
    (m.grow owner r₁ d₁).grow owner r₂ d₂ = m.grow owner (r₁ ++ r₂) (d₁ ++ d₂) := by
  simp only [grow]
  rw [alter_append _ d₁ (by simpa using h), append_append, alter, alter,
    mapDescriptions_mapDescriptions]
  congr 1
  apply mapDescriptions_congr
  intro i d _
  by_cases hi : i = owner <;> simp [hi, List.append_assoc]

-- Growing below a description that was just added.
theorem grow_grow_size (m : Model) (owner : Nat) (r₁ r₂ : List Nat) (d : Description)
    (ds : List Description) :
    (m.grow owner r₁ [d]).grow m.size r₂ ds =
      m.grow owner r₁ ({ d with micro := d.micro ++ r₂ } :: ds) := by
  simp only [grow]
  have h := alter_append_size (m := m.alter owner fun o => { o with micro := o.micro ++ r₁ })
    (fun d => { d with micro := d.micro ++ r₂ }) d
  rw [size_alter] at h
  rw [h, append_append]
  rfl

end Model

namespace DeclarationTree

-- The indices of the first descriptions of trees that are placed one behind the other.
def roots (start : Nat) : List DeclarationTree → List Nat
  | [] => []
  | t :: ts => start :: roots (start + t.preorder.length) ts

mutual

-- The descriptions of a tree that is placed at `start` below `owner`.
def block (owner start : Nat) (origin : String) : DeclarationTree → List Description
  | node e nested =>
    .ofDeclaration e origin owner (roots (start + 1) nested) ::
      blockAll start (start + 1) origin nested

def blockAll (owner start : Nat) (origin : String) : List DeclarationTree → List Description
  | [] => []
  | t :: ts => block owner start origin t ++ blockAll owner (start + t.preorder.length) origin ts

end

mutual

@[simp]
theorem length_block (owner start : Nat) (origin : String) :
    (t : DeclarationTree) → (t.block owner start origin).length = t.preorder.length
  | node e nested => by simp [block, preorder, length_blockAll start (start + 1) origin nested]

@[simp]
theorem length_blockAll (owner start : Nat) (origin : String) :
    (ts : List DeclarationTree) →
      (blockAll owner start origin ts).length = (preorderAll ts).length
  | [] => rfl
  | t :: ts => by
    simp [blockAll, preorderAll, length_block owner start origin t,
      length_blockAll owner (start + t.preorder.length) origin ts]

end

end DeclarationTree

namespace Placement

open DeclarationTree

variable {p : Placement} {owner : Nat} {o : Description} {origin : String}

def named (start : Nat) (es : List Element) : List (String × Nat) :=
  (es.zipIdx start).map fun e => (e.1.nameOrKeyword, e.2)

def numbered (start : Nat) (es : List Element) : List (Nat × Element) :=
  (es.zipIdx start).map fun e => (e.2, e.1)

theorem named_append (start : Nat) (es fs : List Element) :
    named start (es ++ fs) = named start es ++ named (start + es.length) fs := by
  simp [named, List.zipIdx_append]

theorem numbered_append (start : Nat) (es fs : List Element) :
    numbered start (es ++ fs) = numbered start es ++ numbered (start + es.length) fs := by
  simp [numbered, List.zipIdx_append]

-- Adds the descriptions `ds` of the declarations `es`, of which `roots` are directly below `owner`.
def grow (p : Placement) (owner : Nat) (roots : List Nat) (ds : List Description)
    (es : List Element) : Placement where
  model := p.model.grow owner roots ds
  indices := p.indices.insertAll (named p.model.size es)
  nodes := p.nodes ++ numbered p.model.size es

theorem grow_grow {r₁ r₂ : List Nat} {d₁ d₂ : List Description} {e₁ e₂ : List Element}
    (h : owner < p.model.size) (hl : d₁.length = e₁.length) :
    (p.grow owner r₁ d₁ e₁).grow owner r₂ d₂ e₂ =
      p.grow owner (r₁ ++ r₂) (d₁ ++ d₂) (e₁ ++ e₂) := by
  simp only [grow, Model.grow_grow h, Model.size_grow, hl, named_append, numbered_append,
    OrderedMap.insertAll_append, List.append_assoc]

theorem grow_grow_size {r₁ r₂ : List Nat} {d : Description} {ds : List Description} {e : Element}
    {es : List Element} :
    (p.grow owner r₁ [d] [e]).grow p.model.size r₂ ds es =
      p.grow owner r₁ ({ d with micro := d.micro ++ r₂ } :: ds) (e :: es) := by
  have hn (start : Nat) : named start (e :: es) = named start [e] ++ named (start + 1) es :=
    named_append start [e] es
  have hm (start : Nat) :
      numbered start (e :: es) = numbered start [e] ++ numbered (start + 1) es :=
    numbered_append start [e] es
  simp only [grow, Model.grow_grow_size, Model.size_grow, hn, hm, OrderedMap.insertAll_append,
    List.append_assoc, List.length_singleton]

theorem addShell_eq {e : Element} {shell : Description} (h : p.model.get? owner = some o)
    (ho : o.isFinalized = false) (he : e.isDeclaration = true)
    (hs : Description.shell? e = some shell) :
    p.addShell owner origin e shell =
      .ok (p.grow owner [p.model.size] [.ofDeclaration e origin owner []] [e]) := by
  rw [Description.shell?_of_isDeclaration he origin owner] at hs
  cases hs
  refine bind_eq_ok_iff.mpr
    ⟨{ Description.ofDeclaration e origin owner [] with owner := none }, rfl, ?_⟩
  exact bind_eq_ok_iff.mpr ⟨_, Model.add_eq h ho _, rfl⟩

mutual

theorem place_eq (origin : String) :
    (t : DeclarationTree) → (∀ e ∈ t.preorder, e.isDeclaration = true) →
      ∀ {owner : Nat} {p : Placement} {o : Description}, p.model.get? owner = some o →
        o.isFinalized = false →
      place owner origin p t =
        ⟨.ok (p.grow owner [p.model.size] (t.block owner p.model.size origin) t.preorder),
          t.preorder.flatMap duplicates⟩
  | .node e nested, hd, owner, p, o, h, ho => by
    have he := hd e List.mem_cons_self
    have hs := Description.shell?_of_isDeclaration he origin owner
    let q := p.grow owner [p.model.size] [.ofDeclaration e origin owner []] [e]
    have hq : q.model.get? p.model.size = some (.ofDeclaration e origin owner []) := by
      have hl : (p.model.alter owner fun o => { o with micro := o.micro ++ [p.model.size] }).size ≤
          p.model.size := by simp
      exact (Model.get?_append_right _ hl).trans (by simp)
    have hsize : q.model.size = p.model.size + 1 := Model.size_grow ..
    have hn := placeAll_eq origin nested (fun x hx => hd x (List.mem_cons_of_mem e hx)) hq rfl
    rw [hsize, grow_grow_size] at hn
    rw [place, hs]
    simp only [addShell_eq h ho he hs, Outcome.ofModel_ok, pure_bind, Outcome.report_bind]
    rw [hn]
    rfl

theorem placeAll_eq (origin : String) :
    (ts : List DeclarationTree) → (∀ e ∈ preorderAll ts, e.isDeclaration = true) →
      ∀ {owner : Nat} {p : Placement} {o : Description}, p.model.get? owner = some o →
        o.isFinalized = false →
      placeAll owner origin p ts =
        ⟨.ok (p.grow owner (roots p.model.size ts) (blockAll owner p.model.size origin ts)
            (preorderAll ts)),
          (preorderAll ts).flatMap duplicates⟩
  | [], _, owner, p, o, h, ho => by
    simp [placeAll, roots, blockAll, preorderAll, grow, named, numbered]
    rfl
  | t :: ts, hd, owner, p, o, h, ho => by
    have hl := Model.lt_size_of_get? h
    let q := p.grow owner [p.model.size] (t.block owner p.model.size origin) t.preorder
    have hq : q.model.get? owner = some { o with micro := o.micro ++ [p.model.size] } := by
      refine (Model.get?_append_left _ (by simpa using hl)).trans ?_
      simp [h]
    have hsize : q.model.size = p.model.size + t.preorder.length := by
      simp [q, grow, Model.size_grow]
    have ht := place_eq origin t (fun x hx => hd x (List.mem_append_left _ hx)) h ho
    have hn := placeAll_eq origin ts (fun x hx => hd x (List.mem_append_right _ hx)) hq ho
    rw [hsize, grow_grow hl (length_block ..)] at hn
    rw [placeAll, Outcome.bind_of_eq ht, hn]
    simp [roots, blockAll, preorderAll]

end

end Placement

namespace Declarations

open DeclarationTree Placement

-- The tree of a declaration.
def tree (d : Declaration) : DeclarationTree := ofElement d.element

-- The descriptions of declarations that are placed from `start` on below the root.
def block (start : Nat) : List Declaration → List Description
  | [] => []
  | d :: ds =>
    (tree d).block Model.rootIndex start d.origin ++ block (start + (tree d).preorder.length) ds

-- All that is placed for declarations, in the order of the indices.
def placed (ds : List Declaration) : List Element := ds.flatMap fun d => (tree d).preorder

theorem length_block (start : Nat) (ds : List Declaration) :
    (block start ds).length = (placed ds).length := by
  induction ds generalizing start
  case nil => rfl
  case cons d ds hi => simp [block, placed, hi]

theorem element_of_mem_all {trees : List Element} {d : Declaration}
    (h : d ∈ (ofTrees trees).1.all) :
    ∃ t ∈ trees, ∃ scope ∈ scopes t, d.element ∈ scope.declarations ∧ d.origin = t.modelName := by
  simp only [all, species_ofTrees, experiments_ofTrees, List.mem_append,
    OrderedMap.mem_values_iff] at h
  rcases h with ⟨name, h⟩ | ⟨name, h⟩
  all_goals
    obtain ⟨t, ht, scope, hs, he⟩ := mem_allGiven (OrderedMap.mem_of_get?_ofList h)
    obtain ⟨e, hm, he⟩ := List.mem_map.mp he
    cases he
    refine ⟨t, ht, scope, hs, ?_, rfl⟩
    simp [Element.declarations, hm]

theorem isDeclaration_of_mem_all {trees : List Element} {d : Declaration}
    (h : d ∈ (ofTrees trees).1.all) : d.element.isDeclaration = true :=
  have ⟨_, _, _, _, he, _⟩ := element_of_mem_all h
  (Element.isDeclaration_of_mem_declarations he).1

-- Placing declarations one after the other below the root.
theorem foldlM_place {ds : List Declaration} (hd : ∀ d ∈ ds, d.element.isDeclaration = true)
    {p : Placement} {o : Description} (h : p.model.get? Model.rootIndex = some o)
    (ho : o.isFinalized = false) :
    ds.foldlM (fun p d => place Model.rootIndex d.origin p (.ofElement d.element)) p =
      ⟨.ok (p.grow Model.rootIndex (roots p.model.size (ds.map tree)) (block p.model.size ds)
          (placed ds)),
        (placed ds).flatMap duplicates⟩ := by
  induction ds generalizing p o
  case nil => exact placeAll_eq "" [] (by simp [preorderAll]) h ho
  case cons d ds hi =>
    have hl := Model.lt_size_of_get? h
    let q := p.grow Model.rootIndex [p.model.size]
      ((tree d).block Model.rootIndex p.model.size d.origin) (tree d).preorder
    have hq :
        q.model.get? Model.rootIndex = some { o with micro := o.micro ++ [p.model.size] } := by
      refine (Model.get?_append_left _ (by simpa using hl)).trans ?_
      simp [h]
    have hsize : q.model.size = p.model.size + (tree d).preorder.length := by
      simp [q, grow, Model.size_grow]
    have ht := place_eq d.origin (tree d) (isDeclaration_preorder (hd d List.mem_cons_self)) h ho
    have hn := hi (fun x hx => hd x (List.mem_cons_of_mem d hx)) hq ho
    rw [hsize, grow_grow hl (DeclarationTree.length_block ..)] at hn
    apply (Outcome.bind_of_eq ht).trans
    rw [hn]
    simp [roots, block, placed]

end Declarations

namespace Placement

open DeclarationTree

-- The placement of all declarations in `m`, but for the names that the model announces.
def ofAll (m : Model) (ds : List Declaration) : Placement :=
  ({ model := m } : Placement).grow Model.rootIndex (roots m.size (ds.map Declarations.tree))
    (Declarations.block m.size ds) (Declarations.placed ds)

theorem ofDeclarations_eq {m : Model} {ds : Declarations}
    (hd : ∀ d ∈ ds.all, d.element.isDeclaration = true) (ho : m.root.isFinalized = false) :
    ofDeclarations m ds =
      ⟨.ok { ofAll m ds.all with
          model := { (ofAll m ds.all).model with
            microSpeciesNames := .ofList (ofAll m ds.all).indices.keys } },
        (Declarations.placed ds.all).flatMap duplicates⟩ := by
  have h := Declarations.foldlM_place hd (p := { model := m }) (Model.get?_rootIndex m) ho
  apply (Outcome.bind_of_eq h).trans
  simp [ofAll]

end Placement
end ModelAssembly
