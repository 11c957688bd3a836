import ModelAssembly.Proofs.Linking
/-!
Containment: the tree of declarations that survive, found again among the descriptions of a model.
The descriptions of a declaration and of all that is nested in it stand in one stretch of indices,
each owner before what it contains.

Main statements: `Linking.mirrors` says that the placed descriptions of a linked model mirror its
declarations; `Mirrors.exists_owner` that the root leads to each of them.
-/

namespace ModelAssembly

namespace Declaration

-- The declarations directly nested in `D` that survive.
def nested (D : Declaration) : List Declaration :=
  D.element.survivors.map fun e => { D with element := e }

end Declaration

-- A declaration is placed before what is nested in it.
theorem Declarations.placed_cons (D : Declaration) (Ds : List Declaration) :
    placed (D :: Ds) = D.element :: (placed D.nested ++ placed Ds) := by
  have hn : DeclarationTree.preorderAll (D.element.survivors.map DeclarationTree.ofElement) =
      placed D.nested := by
    rw [DeclarationTree.preorderAll_eq_flatMap, List.flatMap_map, Declaration.nested, placed,
      List.flatMap_map]
    rfl
  have hc : placed (D :: Ds) = (tree D).preorder ++ placed Ds := List.flatMap_cons
  rw [hc, tree, DeclarationTree.ofElement_eq, DeclarationTree.preorder, hn, List.cons_append]

namespace Description

-- `d` describes the declaration `D` as part of what `owner` contains.
structure StandsFor (d : Description) (D : Declaration) (owner : Nat) : Prop where
  name : d.name = D.element.nameOrKeyword
  kind : DescriptionKind.ofElement? D.element.kind = some d.kind
  declaredAs : d.declaredAs = D.element.kind
  facets : d.facets = D.element.facets
  provenance : d.provenance = D.element.provenance
  origin : d.origin = some D.origin
  owner : d.owner = some owner
  isOwn : d.isOwn = true

variable {d d' : Description} {D : Declaration} {owner : Nat}

theorem standsFor_ofDeclaration (h : D.element.isDeclaration = true) (micro : List Nat) :
    (ofDeclaration D.element D.origin owner micro).StandsFor D owner := by
  simp only [Element.isDeclaration, Bool.or_eq_true] at h
  refine ⟨rfl, ?_, rfl, rfl, rfl, rfl, rfl, rfl⟩
  cases hk : D.element.kind <;>
    simp_all [ofDeclaration, new, DescriptionKind.ofElement?, ElementKind.isSpecies,
      ElementKind.isExperiment]

theorem StandsFor.of_bare (h : d.StandsFor D owner) (hb : d'.bare = d.bare) :
    d'.StandsFor D owner where
  name := (congrArg Description.name hb).trans h.name
  kind := h.kind.trans (congrArg (fun x : Description => some x.kind) hb).symm
  declaredAs := (congrArg Description.declaredAs hb).trans h.declaredAs
  facets := (congrArg Description.facets hb).trans h.facets
  provenance := (congrArg Description.provenance hb).trans h.provenance
  origin := (congrArg Description.origin hb).trans h.origin
  owner := (congrArg Description.owner hb).trans h.owner
  isOwn := (congrArg Description.isOwn hb).trans h.isOwn

end Description

namespace Model

-- The descriptions of `m` from `i` up to `j` are those of the declarations `Ds`, contained in
-- `owner`, and of all that is nested in them; `is` are the indices of the outermost.
inductive Mirrors (m : Model) : Nat → Nat → List Declaration → List Nat → Nat → Prop
  | nil {owner i : Nat} : Mirrors m owner i [] [] i
  | cons {owner i j k : Nat} {d : Description} {D : Declaration} {Ds : List Declaration}
      {is : List Nat} : m.get? i = some d → d.StandsFor D owner →
    Mirrors m i (i + 1) D.nested d.micro j → Mirrors m owner j Ds is k →
    Mirrors m owner i (D :: Ds) (i :: is) k

variable {m m' : Model} {owner i j start : Nat} {Ds : List Declaration} {is : List Nat}
  {ds es : List Description}

namespace Mirrors

theorem le (h : Mirrors m owner i Ds is j) : i ≤ j := by
  induction h
  case nil => exact Nat.le_refl _
  case cons hn hs => omega

-- Parents, members and the lock do not matter.
theorem of_bare (h : Mirrors m owner i Ds is j)
    (hb : ∀ k d, i ≤ k → k < j → m.get? k = some d → ∃ d', m'.get? k = some d' ∧ d'.bare = d.bare) :
    Mirrors m' owner i Ds is j := by
  induction h
  case nil => exact nil
  case cons i j k d D Ds is hd hs hn hr hin hir =>
    have hj := hn.le
    have hk := hr.le
    have ⟨d', hd', he⟩ := hb i d (by omega) (by omega) hd
    have hn' := hin fun x e hx hx' => hb x e (by omega) (by omega)
    have hm := Description.micro_of_bare he
    exact cons hd' (hs.of_bare he) (hm ▸ hn') (hir fun x e hx hx' => hb x e (by omega) (by omega))

theorem stop_eq (h : Mirrors m owner i Ds is j) : j = i + (Declarations.placed Ds).length := by
  induction h
  case nil => rfl
  case cons hn hr hin hir =>
    rw [Declarations.placed_cons, List.length_cons, List.length_append]
    omega

-- Each description in the stretch stands for the declaration in its place. What holds of the
-- outermost, and passes on to what is nested, holds of all of them.
theorem exists_standsFor {P : Nat → Declaration → Prop} (h : Mirrors m owner i Ds is j)
    (ho : ∀ (n x : Nat) D, is[n]? = some x → Ds[n]? = some D → P x D)
    (hn : ∀ (o : Nat) D (n x : Nat) E, P o D → (m.microOf o)[n]? = some x →
      D.nested[n]? = some E → P x E) {k : Nat} (hi : i ≤ k) (hj : k < j) :
    ∃ d D o, m.get? k = some d ∧ d.StandsFor D o ∧ P k D ∧
      (Declarations.placed Ds)[k - i]? = some D.element := by
  induction h
  case nil => omega
  case cons i j k' d D Ds is hd hs hnest _ hin hir =>
    have hP : P i D := ho 0 i D rfl rfl
    have hle := hnest.le
    have hlen := hnest.stop_eq
    rw [Declarations.placed_cons]
    cases Nat.eq_or_lt_of_le hi
    case inl he =>
      subst he
      exact ⟨d, D, _, hd, hs, hP, by simp⟩
    case inr hlt =>
      have hk : k - i = (k - (i + 1)) + 1 := by omega
      rw [hk, List.getElem?_cons_succ]
      cases Nat.lt_or_ge k j
      case inl hl =>
        have hnested (n x : Nat) (E) (hx : d.micro[n]? = some x) (hE : D.nested[n]? = some E) :
            P x E :=
          hn i D n x E hP (microOf_of_get? hd ▸ hx) hE
        have ⟨e, E, o, he, hs, hPE, hp⟩ := hin hnested hlt hl
        have hl' := List.getElem?_eq_some_iff.mp hp |>.1
        exact ⟨e, E, o, he, hs, hPE, (List.getElem?_append_left hl').trans hp⟩
      case inr hge =>
        have hrest (n x : Nat) (E) (hx : is[n]? = some x) (hE : Ds[n]? = some E) : P x E :=
          ho (n + 1) x E hx hE
        have ⟨e, E, o, he, hs, hPE, hp⟩ := hir hrest hge hj
        refine ⟨e, E, o, he, hs, hPE, ?_⟩
        have hkj : k - (i + 1) - (Declarations.placed D.nested).length = k - j := by omega
        rw [List.getElem?_append_right (by omega), hkj]
        exact hp

-- Each description in the stretch is one of the outermost or contained in one before it.
theorem exists_owner (h : Mirrors m owner i Ds is j) {k : Nat} (hi : i ≤ k) (hj : k < j) :
    k ∈ is ∨ ∃ o, i ≤ o ∧ o < k ∧ k ∈ m.microOf o := by
  induction h
  case nil => omega
  case cons i j k' d D Ds is hd hs hn hr hin hir =>
    by_cases hk : k = i
    case pos => exact .inl (hk ▸ List.mem_cons_self)
    case neg =>
      have hij := hn.le
      by_cases hl : k < j
      case pos =>
        cases hin (by omega) hl
        case inl hm => exact .inr ⟨i, by omega, by omega, microOf_of_get? hd ▸ hm⟩
        case inr ho =>
          have ⟨o, ho, hok, hm⟩ := ho
          exact .inr ⟨o, by omega, hok, hm⟩
      case neg =>
        cases hir (by omega) hj
        case inl hm => exact .inl (List.mem_cons_of_mem _ hm)
        case inr ho =>
          have ⟨o, ho, hok, hm⟩ := ho
          exact .inr ⟨o, by omega, hok, hm⟩

-- What the descriptions of a stretch contain lies in the stretch.
theorem mem_range (h : Mirrors m owner i Ds is j) :
    (∀ x ∈ is, i ≤ x ∧ x < j) ∧ ∀ k x, i ≤ k → k < j → x ∈ m.microOf k → k < x ∧ x < j := by
  induction h
  case nil => exact ⟨by simp, fun k x hi hj => by omega⟩
  case cons i j k' d D Ds is hd hs hn hr hin hir =>
    have hij := hn.le
    have hjk := hr.le
    constructor
    case left =>
      intro x hx
      cases List.mem_cons.mp hx
      case inl he => omega
      case inr hm =>
        have ⟨h₁, h₂⟩ := hir.1 x hm
        omega
    case right =>
      intro k x hi hj hx
      by_cases hk : k = i
      case pos =>
        subst hk
        have ⟨h₁, h₂⟩ := hin.1 x (microOf_of_get? hd ▸ hx)
        omega
      case neg =>
        by_cases hl : k < j
        case pos =>
          have ⟨h₁, h₂⟩ := hin.2 k x (by omega) hl hx
          omega
        case neg =>
          have ⟨h₁, h₂⟩ := hir.2 k x (by omega) hj hx
          omega

end Mirrors

-- The own descriptions directly in the root.
def ownTop (m : Model) : List Nat := m.root.micro.filter fun i => (m.get? i).any (·.isOwn)

-- The description at `i` is that of a declaration: own descriptions in the root are those of `Ds`,
-- in order, and what a description contains is what is nested in its declaration.
inductive Describes (m : Model) (Ds : List Declaration) : Nat → Declaration → Prop
  | top {n i : Nat} {D : Declaration} : m.ownTop[n]? = some i → Ds[n]? = some D → Describes m Ds i D
  | nested {n i o : Nat} {D E : Declaration} : Describes m Ds o D → (m.microOf o)[n]? = some i →
    D.nested[n]? = some E → Describes m Ds i E

-- From `start` on, `m` holds `ds`; parents, members and the lock do not matter.
def Carries (m : Model) (start : Nat) (ds : List Description) : Prop :=
  ∀ k d, ds[k]? = some d → ∃ d', m.get? (start + k) = some d' ∧ d'.bare = d.bare

namespace Carries

theorem left (h : m.Carries start (ds ++ es)) : m.Carries start ds := fun k d hk =>
  have hl := List.getElem?_eq_some_iff.mp hk |>.1
  h k d ((List.getElem?_append_left hl).trans hk)

theorem right (h : m.Carries start (ds ++ es)) : m.Carries (start + ds.length) es := by
  intro k d hk
  have hd : (ds ++ es)[ds.length + k]? = some d := by
    rw [List.getElem?_append_right (Nat.le_add_right ..), Nat.add_sub_cancel_left, hk]
  exact Nat.add_assoc start ds.length k ▸ h (ds.length + k) d hd

theorem tail {d : Description} (h : m.Carries start (d :: ds)) : m.Carries (start + 1) ds :=
  have hs : m.Carries start ([d] ++ ds) := h
  hs.right

end Carries

section

open DeclarationTree

-- A declaration that is placed with all that is nested in it.
def MirrorsPlaced (m : Model) (D : Declaration) : Prop :=
  ∀ owner start, m.Carries start ((Declarations.tree D).block owner start D.origin) →
    ∃ d, m.get? start = some d ∧ d.StandsFor D owner ∧
      m.Mirrors start (start + 1) D.nested d.micro
        (start + (Declarations.tree D).preorder.length)

theorem mirrors_blockAll {origin : String} {es : List Element}
    (h : ∀ e ∈ es, m.MirrorsPlaced ⟨e, origin⟩)
    (hc : m.Carries start (blockAll owner start origin (es.map ofElement))) :
    m.Mirrors owner start (es.map fun e => ⟨e, origin⟩) (roots start (es.map ofElement))
      (start + (preorderAll (es.map ofElement)).length) := by
  induction es generalizing start
  case nil => exact .nil
  case cons e es hi =>
    have ⟨d, hd, hs, hn⟩ := h e List.mem_cons_self owner start hc.left
    have hr := hc.right
    rw [length_block] at hr
    have hrest := hi (fun x hx => h x (List.mem_cons_of_mem e hx)) hr
    have hl : (preorderAll ((e :: es).map ofElement)).length =
        (ofElement e).preorder.length + (preorderAll (es.map ofElement)).length :=
      List.length_append
    rw [hl, ← Nat.add_assoc]
    exact .cons hd hs hn hrest

theorem mirrorsPlaced (m : Model) (origin : String) (e : Element) (h : e.isDeclaration = true) :
    m.MirrorsPlaced ⟨e, origin⟩ := by
  induction e using Element.survivors_induction
  case h e hi =>
    intro owner start hc
    have hn := fun x hx => hi x hx (Element.isDeclaration_of_mem_survivors hx)
    simp only [Declarations.tree, ofElement_eq e, block] at hc ⊢
    have ⟨d, hd, hb⟩ := hc 0 _ rfl
    have hall := hc.tail
    have hm : d.micro = roots (start + 1) (e.survivors.map ofElement) :=
      Description.micro_of_bare hb
    refine ⟨d, hd, (Description.standsFor_ofDeclaration h _).of_bare hb, ?_⟩
    have hl : start + (e :: preorderAll (e.survivors.map ofElement)).length =
        start + 1 + (preorderAll (e.survivors.map ofElement)).length := by
      rw [List.length_cons, Nat.add_assoc, Nat.add_comm 1]
    rw [hm, preorder, hl]
    exact mirrors_blockAll hn hall

theorem mirrors_block (h : ∀ D ∈ Ds, D.element.isDeclaration = true)
    (hc : m.Carries start (Declarations.block start Ds)) :
    m.Mirrors rootIndex start Ds (roots start (Ds.map Declarations.tree))
      (start + (Declarations.placed Ds).length) := by
  induction Ds generalizing start
  case nil => exact .nil
  case cons D Ds hi =>
    have ⟨d, hd, hs, hn⟩ :=
      m.mirrorsPlaced D.origin D.element (h D List.mem_cons_self) rootIndex start hc.left
    have hr := hc.right
    rw [length_block] at hr
    have hrest := hi (fun x hx => h x (List.mem_cons_of_mem D hx)) hr
    rw [Declarations.placed, List.flatMap_cons, List.length_append, ← Nat.add_assoc]
    exact .cons hd hs hn hrest

end

end Model

namespace Assembler.Linking

open Declarations

variable {a : Assembler} {r : Request} (l : Linking a r)

theorem mirrors : l.model.Mirrors Model.rootIndex l.base l.declared
    (DeclarationTree.roots l.base (l.declared.map tree)) l.model.size := by
  have hc : l.model.Carries l.base (block l.base l.declared) := by
    intro k d hk
    refine ⟨l.placement.link d, ?_, rfl⟩
    rw [l.get?_of_le (Nat.le_add_right ..), Nat.add_sub_cancel_left, hk]
    rfl
  exact l.size_model ▸ Model.mirrors_block (fun _ => isDeclaration_of_mem_all) hc

end Assembler.Linking
end ModelAssembly
