import ModelAssembly.Assembly.DeclarationTree
import ModelAssembly.Proofs.OrderedMap
/-!
The declarations that survive below a declaration, told without tables: for each name among those
directly nested in an element, in the order in which the names are first met, the last declaration
of that name.

Main statements: `ofElement_eq` unrolls the tree of an element by one level;
`isDeclaration_preorder` says that such a tree holds species and experiments only.
-/

namespace ModelAssembly

namespace Element

-- Species and experiments.
def isDeclaration (e : Element) : Bool := e.kind.isSpecies || e.kind.isExperiment

-- For each name, in the order of first appearance, the last element of that name.
def lastOfEach (es : List Element) : List Element :=
  (es.map (·.nameOrKeyword)).eraseDups.filterMap fun name =>
    es.reverse.find? (·.nameOrKeyword = name)

-- The declarations directly under `e` that count.
def survivors (e : Element) : List Element := lastOfEach e.declarations

theorem mem_of_mem_lastOfEach {e : Element} {es : List Element} (h : e ∈ lastOfEach es) :
    e ∈ es := by
  have ⟨name, _, hf⟩ := List.mem_filterMap.mp h
  exact List.mem_reverse.mp (List.mem_of_find?_eq_some hf)

theorem isDeclaration_of_mem_declarations {e x : Element} (h : x ∈ e.declarations) :
    x.isDeclaration = true ∧ x ∈ e.children := by
  simp only [declarations, speciesDeclarations, experiments, List.mem_append, List.mem_filter,
    decide_eq_true_eq] at h
  rcases h with (⟨hm, hk⟩ | ⟨hm, hk⟩) | ⟨hm, hk⟩
  · simp [isDeclaration, hk, hm, ElementKind.isSpecies]
  · simp [isDeclaration, hk, hm, ElementKind.isSpecies]
  · simp [isDeclaration, hk, hm]

theorem isDeclaration_of_mem_survivors {e x : Element} (h : x ∈ e.survivors) :
    x.isDeclaration = true :=
  (isDeclaration_of_mem_declarations (mem_of_mem_lastOfEach h)).1

theorem sizeOf_lt_of_mem_survivors {e x : Element} (h : x ∈ e.survivors) : sizeOf x < sizeOf e :=
  sizeOf_lt_of_mem_children (isDeclaration_of_mem_declarations (mem_of_mem_lastOfEach h)).2

-- What holds of an element as soon as it holds of the survivors directly under it holds of all.
theorem survivors_induction {P : Element → Prop} (h : ∀ e, (∀ x ∈ e.survivors, P x) → P e)
    (e : Element) : P e :=
  h e fun x hx =>
    have := sizeOf_lt_of_mem_survivors hx
    survivors_induction h x
termination_by sizeOf e

end Element

namespace DeclarationTree

open Element

theorem lookup_map_key {κ α β : Type} [DecidableEq κ] (f : α → κ) (g : α → β) (es : List α)
    (k : κ) :
    (es.map fun e => (f e, g e)).lookup k = (es.find? (f · = k)).map g := by
  induction es
  case nil => rfl
  case cons e es hi =>
    by_cases h : f e = k
    case pos => simp [h]
    case neg =>
      have h' : (k == f e) = false := by simpa using fun he => h he.symm
      simp [List.lookup_cons, h, h', hi]

-- A table of elements by name holds the last of each name.
theorem values_ofList_named {β : Type} (g : Element → β) (es : List Element) :
    (OrderedMap.ofList (es.map fun e => (e.nameOrKeyword, g e))).values =
      (lastOfEach es).map g := by
  rw [OrderedMap.values_eq_filterMap, OrderedMap.keys_ofList, lastOfEach, List.map_filterMap,
    List.map_map]
  apply List.filterMap_congr
  intro name _
  rw [OrderedMap.get?_ofList, ← List.map_reverse, lookup_map_key]

@[simp]
theorem element_ofElement (e : Element) : (ofElement e).element = e := by
  cases e
  rfl

theorem ofElements_eq_map (es : List Element) : ofElements es = es.map ofElement := by
  induction es
  case nil => rfl
  case cons e es hi => simp [ofElements, hi]

theorem survivors_map_ofElement (e : Element) :
    DeclarationTree.survivors (e.children.map ofElement) = e.survivors.map ofElement := by
  have h (kind : ElementKind) :
      (e.children.map ofElement).filter (·.element.kind = kind) =
        (e.children.filter (·.kind = kind)).map ofElement := by
    simp [List.filter_map, Function.comp_def]
  have hx : e.experiments = e.children.filter (·.kind = .experiment) := by
    simp [experiments, ElementKind.isExperiment, beq_eq_decide]
  simp only [DeclarationTree.survivors, h]
  rw [← List.map_append, ← List.map_append, List.map_map, Element.survivors, declarations,
    speciesDeclarations, hx, ← values_ofList_named]
  simp [Function.comp_def]

theorem ofElement_eq (e : Element) : ofElement e = node e (e.survivors.map ofElement) := by
  rw [← survivors_map_ofElement, ← ofElements_eq_map]
  cases e
  rfl

mutual

-- The declarations of a tree, each before those that are nested in it.
def preorder : DeclarationTree → List Element
  | node e nested => e :: preorderAll nested

def preorderAll : List DeclarationTree → List Element
  | [] => []
  | t :: ts => preorder t ++ preorderAll ts

end

theorem preorderAll_eq_flatMap (ts : List DeclarationTree) :
    preorderAll ts = ts.flatMap preorder := by
  induction ts
  case nil => rfl
  case cons t ts hi => simp [preorderAll, hi]

theorem isDeclaration_preorder {e : Element} (h : e.isDeclaration = true) :
    ∀ x ∈ (ofElement e).preorder, x.isDeclaration = true := by
  induction e using survivors_induction
  case h e hi =>
    intro x hx
    rw [ofElement_eq, preorder, preorderAll_eq_flatMap, List.mem_cons, List.flatMap_map,
      List.mem_flatMap] at hx
    cases hx
    case inl he => exact he ▸ h
    case inr hm =>
      have ⟨y, hy, hx⟩ := hm
      exact hi y hy (isDeclaration_of_mem_survivors hy) x hx

end DeclarationTree
end ModelAssembly
