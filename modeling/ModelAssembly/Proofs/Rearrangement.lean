import ModelAssembly.Assembly.Assembler
import ModelAssembly.Proofs.Declarations
import ModelAssembly.Proofs.DeclarationTree
/-!
Rearrangements of a request: in some scopes the species, grids and experiments are declared in
another order. What a request says about the model itself does not change.

Main statements: `Element.Rearranged` with the lemmas on what an element keeps;
`Rearranged.allGiven_eq` for whatever trees give to a table that does not look at declarations.
-/

namespace ModelAssembly

section

variable {α β : Type} {R : α → α → Prop} {l l' l'' : List α}

theorem forall₂_trans (ht : ∀ a b c, R a b → R b c → R a c) (h : List.Forall₂ R l l')
    (h' : List.Forall₂ R l' l'') : List.Forall₂ R l l'' := by
  induction h generalizing l''
  case nil =>
    cases h'
    exact .nil
  case cons hab _ ih =>
    cases h'
    case cons hbc h' => exact .cons (ht _ _ _ hab hbc) (ih h')

theorem flatMap_eq_of_forall₂ {f : α → List β} (h : List.Forall₂ R l l')
    (hf : ∀ a b, R a b → f b = f a) : l'.flatMap f = l.flatMap f := by
  induction h
  case nil => rfl
  case cons hab _ ih => rw [List.flatMap_cons, List.flatMap_cons, hf _ _ hab, ih]

end

namespace Element

-- Declarations may stand directly under `e`, as far as it goes by its kind.
def isScope (e : Element) : Bool := e.isDeclaration || e.kind = .global

-- `e` with declarations in another order, among those directly under it and in the scopes further
-- down. All other children keep theirs.
inductive Rearranged : Element → Element → Prop
  | children {e : Element} {cs : List Element} :
    (cs.filter (·.isDeclaration)).Perm (e.children.filter (·.isDeclaration)) →
    cs.filter (!·.isDeclaration) = e.children.filter (!·.isDeclaration) →
    Rearranged e { e with children := cs }
  | nested {e c c' : Element} {before after : List Element} :
    e.children = before ++ c :: after → c.isScope = true → Rearranged c c' →
    Rearranged e { e with children := before ++ c' :: after }
  | trans {e f g : Element} : Rearranged e f → Rearranged f g → Rearranged e g

theorem role?_of_isScope {e : Element} (h : e.isScope = true) : e.kind.role? = none := by
  cases hk : e.kind <;>
    simp_all [isScope, isDeclaration, ElementKind.role?, ElementKind.isSpecies,
      ElementKind.isExperiment]

namespace Rearranged

variable {e e' : Element}

theorem refl (e : Element) : Rearranged e e := by
  cases e
  exact .children (.refl _) rfl

theorem exists_children (h : Rearranged e e') : ∃ cs, e' = { e with children := cs } := by
  induction h
  case children cs _ _ => exact ⟨cs, rfl⟩
  case nested => exact ⟨_, rfl⟩
  case trans h₁ h₂ =>
    have ⟨_, he⟩ := h₁
    have ⟨cs, hf⟩ := h₂
    subst he hf
    exact ⟨cs, rfl⟩

theorem kind (h : Rearranged e e') : e'.kind = e.kind := by
  have ⟨_, he⟩ := h.exists_children
  rw [he]

theorem facets (h : Rearranged e e') : e'.facets = e.facets := by
  have ⟨_, he⟩ := h.exists_children
  rw [he]

theorem pragmas (h : Rearranged e e') : e'.pragmas = e.pragmas := by
  have ⟨_, he⟩ := h.exists_children
  rw [he]

theorem provenance (h : Rearranged e e') : e'.provenance = e.provenance := by
  have ⟨_, he⟩ := h.exists_children
  rw [he]

theorem nameOrKeyword (h : Rearranged e e') : e'.nameOrKeyword = e.nameOrKeyword := by
  have ⟨_, he⟩ := h.exists_children
  rw [he]
  rfl

theorem modelName (h : Rearranged e e') : e'.modelName = e.modelName := by
  rw [Element.modelName, Element.modelName, h.nameOrKeyword]

theorem isDeclaration (h : Rearranged e e') : e'.isDeclaration = e.isDeclaration := by
  rw [Element.isDeclaration, Element.isDeclaration, h.kind]

-- Members are no declarations, nor can they be scopes.
theorem members (h : Rearranged e e') : e'.members = e.members := by
  induction h
  case children e cs _ hrest =>
    have hsub (l : List Element) : l.filter (·.kind.role?.isSome) =
        (l.filter (!·.isDeclaration)).filter (·.kind.role?.isSome) := by
      rw [List.filter_filter]
      refine List.filter_congr fun c _ => ?_
      by_cases hc : c.isDeclaration = true
      case pos => simp [hc, role?_of_isScope (e := c) (by simp [isScope, hc])]
      case neg => simp [hc]
    rw [Element.members, Element.members, hsub, hsub e.children, hrest]
  case nested he hc h _ =>
    have hno := role?_of_isScope hc
    have hno' := h.kind ▸ hno
    rw [Element.members, Element.members, he]
    simp [hno, hno']
  case trans h₁ h₂ => exact h₂.trans h₁

theorem declaredIn (h : Rearranged e e') : Member.declaredIn e' = Member.declaredIn e := by
  rw [Member.declaredIn, Member.declaredIn, h.members]

-- The global blocks of a tree stay where they are, and may be rearranged themselves.
theorem globals (h : Rearranged e e') : List.Forall₂ Rearranged e.globals e'.globals := by
  induction h
  case children e cs _ hrest =>
    have hsub (l : List Element) : l.filter (·.kind = .global) =
        (l.filter (!·.isDeclaration)).filter (·.kind = .global) := by
      rw [List.filter_filter]
      refine List.filter_congr fun c _ => ?_
      cases hk : c.kind <;>
        simp [Element.isDeclaration, hk, ElementKind.isSpecies, ElementKind.isExperiment]
    have hsame : ({ e with children := cs } : Element).globals = e.globals := by
      rw [Element.globals, Element.globals, hsub, hsub e.children, hrest]
    exact hsame ▸ List.forall₂_same.mpr fun c _ => refl c
  case nested e c c' before after he _ h _ =>
    have hrefl (l : List Element) : List.Forall₂ Rearranged l l :=
      List.forall₂_same.mpr fun c _ => refl c
    rw [Element.globals, Element.globals, he, List.filter_append, List.filter_append,
      List.filter_cons, List.filter_cons, h.kind]
    refine List.rel_append (hrefl _) ?_
    split
    case isTrue => exact .cons h (hrefl _)
    case isFalse => exact hrefl _
  case trans h₁ h₂ => exact forall₂_trans (fun _ _ _ => .trans) h₁ h₂

theorem scopes (h : Rearranged e e') :
    List.Forall₂ Rearranged (Declarations.scopes e) (Declarations.scopes e') :=
  .cons h h.globals

section

variable {κ α : Type} {entries : String → Element → List (κ × α)} {trees trees' : List Element}

-- Tables to which a scope gives the same, however its declarations are arranged, are the same.
theorem allGiven_eq (he : ∀ origin e e', Rearranged e e' → entries origin e' = entries origin e)
    (h : List.Forall₂ Rearranged trees trees') :
    Declarations.allGiven entries trees' = Declarations.allGiven entries trees := by
  refine flatMap_eq_of_forall₂ (List.rel_reverse h) fun e e' h => ?_
  rw [Declarations.given, Declarations.given, h.modelName]
  exact flatMap_eq_of_forall₂ h.scopes fun _ _ => he _ _ _

theorem facets_ofTrees (h : List.Forall₂ Rearranged trees trees') :
    (Declarations.ofTrees trees').1.facets = (Declarations.ofTrees trees).1.facets := by
  rw [Declarations.facets_ofTrees, Declarations.facets_ofTrees, allGiven_eq ?_ h]
  intro _ _ _ h
  rw [Declarations.facetEntries, Declarations.facetEntries, h.facets]

theorem members_ofTrees (h : List.Forall₂ Rearranged trees trees') :
    (Declarations.ofTrees trees').1.members = (Declarations.ofTrees trees).1.members := by
  have hmap : ((Declarations.ofTrees trees').1.members.map fun m => (m.key, m)) =
      (Declarations.ofTrees trees).1.members.map fun m => (m.key, m) := by
    rw [Declarations.members_ofTrees, Declarations.members_ofTrees, allGiven_eq ?_ h]
    intro _ _ _ h
    rw [Declarations.memberEntries, Declarations.memberEntries, Declarations.globalMembers,
      Declarations.globalMembers, h.declaredIn]
  simpa [Function.comp_def] using congrArg (List.map Prod.snd) hmap

end
end Rearranged
end Element

-- `r'` is `r` with declarations in another order.
structure Request.Rearranged (r r' : Request) : Prop where
  trees : List.Forall₂ Element.Rearranged r.trees r'.trees
  rest : r' = { r with trees := r'.trees }

end ModelAssembly
