import ModelAssembly.Proofs.ParentLinks
import ModelAssembly.Proofs.Rearrangement
import Mathlib.Data.List.Perm.Basic
/-!
Profiles: what declarations come to apart from where they stand among their siblings. As long as no
name is declared twice, nothing that is declared gets lost, and the descriptions of a linked model
have the profiles that its request has, each one once.

Main statements: `Request.Rearranged.perm_profiles` says that rearranging a request permutes its
profiles; `Linking.exists_of_mem_profiles` and `Bears.exists_shows` that descriptions and profiles
go together; `Bears.unique` that a name is enough to tell them apart.
-/

namespace ModelAssembly

theorem perm_filter_or {α : Type} {p q : α → Bool} {l : List α}
    (h : ∀ a, p a = true → q a = false) :
    (l.filter p ++ l.filter q).Perm (l.filter fun a => p a || q a) := by
  have hp : (l.filter fun a => p a || q a).filter p = l.filter p := by
    rw [List.filter_filter]
    exact List.filter_congr fun a _ => by cases p a <;> simp
  have hq : (l.filter fun a => p a || q a).filter (!p ·) = l.filter q := by
    rw [List.filter_filter]
    refine List.filter_congr fun a _ => ?_
    cases ha : p a <;> simp [h, ha]
  exact hp ▸ hq ▸ List.filter_append_perm p (l.filter fun a => p a || q a)

-- What a description takes from its declaration, and the name of what it is nested in.
structure Profile where
  name : String
  kind : ElementKind
  facets : Facets
  members : List Member
  owner : String

namespace Element

def profile (owner : String) (e : Element) : Profile where
  name := e.nameOrKeyword
  kind := e.kind
  facets := e.facets
  members := Member.declaredIn e
  owner := owner

mutual

-- The profile of a declaration that is nested in `owner`, and those of all that is nested in it.
def profiles (owner : String) : Element → List Profile
  | ⟨kind, name, facets, children, provenance, pragmas⟩ =>
    let e : Element := ⟨kind, name, facets, children, provenance, pragmas⟩
    if e.isDeclaration then e.profile owner :: profilesAll e.nameOrKeyword children else []

def profilesAll (owner : String) : List Element → List Profile
  | [] => []
  | e :: r => profiles owner e ++ profilesAll owner r

end

variable {owner : String} {e : Element}

theorem profilesAll_eq_flatMap (owner : String) (es : List Element) :
    profilesAll owner es = es.flatMap (profiles owner) := by
  induction es
  case nil => rfl
  case cons e es hi => rw [profilesAll, hi, List.flatMap_cons]

theorem profiles_of_isDeclaration (h : e.isDeclaration = true) : e.profiles owner =
    e.profile owner :: e.children.flatMap (profiles e.nameOrKeyword) := by
  cases e
  rw [profiles, if_pos h, profilesAll_eq_flatMap]

theorem profiles_of_not_isDeclaration (h : ¬ e.isDeclaration = true) : e.profiles owner = [] := by
  cases e
  rw [profiles, if_neg h]

theorem flatMap_profiles_filter (owner : String) (es : List Element) :
    (es.filter (·.isDeclaration)).flatMap (profiles owner) = es.flatMap (profiles owner) := by
  induction es
  case nil => rfl
  case cons e es hi =>
    rw [List.filter_cons, List.flatMap_cons]
    split
    case isTrue => rw [List.flatMap_cons, hi]
    case isFalse h => rw [hi, profiles_of_not_isDeclaration h, List.nil_append]

-- Each declaration among `es` has a profile under its name.
theorem names_sublist (owner : String) (es : List Element) :
    ((es.filter (·.isDeclaration)).map (·.nameOrKeyword)).Sublist
      ((es.flatMap (profiles owner)).map (·.name)) := by
  induction es
  case nil => exact .slnil
  case cons e es hi =>
    rw [List.filter_cons, List.flatMap_cons, List.map_append]
    split
    case isFalse h =>
      rw [profiles_of_not_isDeclaration h]
      exact hi
    case isTrue h =>
      rw [profiles_of_isDeclaration h, List.map_cons, List.map_cons, List.cons_append]
      exact .cons_cons _ (hi.trans (List.sublist_append_right ..))

theorem perm_declarations (e : Element) :
    e.declarations.Perm (e.children.filter (·.isDeclaration)) := by
  have hspecies : e.speciesDeclarations.Perm (e.children.filter (·.kind.isSpecies)) := by
    refine (perm_filter_or fun c hc => ?_).trans (.of_eq (List.filter_congr fun c _ => ?_))
    · simpa using fun hg => by simp [hg] at hc
    · cases hk : c.kind <;> simp [ElementKind.isSpecies]
  refine (hspecies.append_right _).trans (perm_filter_or fun c hc => ?_)
  cases hk : c.kind <;> simp_all [ElementKind.isSpecies, ElementKind.isExperiment]

namespace Rearranged

variable {e' : Element}

theorem profile (h : Rearranged e e') (owner : String) : e'.profile owner = e.profile owner := by
  rw [Element.profile, Element.profile, h.nameOrKeyword, h.kind, h.facets, h.declaredIn]

theorem perm_flatMap_profiles (h : Rearranged e e') (owner : String) :
    (e'.children.flatMap (profiles owner)).Perm (e.children.flatMap (profiles owner)) := by
  induction h generalizing owner
  case children e cs hp _ =>
    rw [← flatMap_profiles_filter, ← flatMap_profiles_filter owner e.children]
    exact hp.flatMap_right _
  case nested e c c' before after he _ h hi =>
    have hc : (c'.profiles owner).Perm (c.profiles owner) := by
      by_cases hd : c.isDeclaration = true
      case neg =>
        rw [profiles_of_not_isDeclaration hd, profiles_of_not_isDeclaration (h.isDeclaration ▸ hd)]
      case pos =>
        rw [profiles_of_isDeclaration hd, profiles_of_isDeclaration (h.isDeclaration ▸ hd),
          h.profile, h.nameOrKeyword]
        exact (hi c.nameOrKeyword).cons _
    rw [he, List.flatMap_append, List.flatMap_append, List.flatMap_cons, List.flatMap_cons]
    exact (hc.append_right _).append_left _
  case trans h₁ h₂ => exact (h₂ owner).trans (h₁ owner)

end Rearranged
end Element

namespace Declarations

open Element

variable {root : String} {trees trees' : List Element}

-- What stands directly in some scope of `trees`.
def directly (trees : List Element) : List Element := (trees.flatMap scopes).flatMap (·.children)

-- The profiles of all that is declared in `trees`, on any level. The root goes by the name `root`.
def profilesOf (root : String) (trees : List Element) : List Profile :=
  (directly trees).flatMap (Element.profiles root)

theorem perm_profilesOf (root : String) (h : List.Forall₂ Rearranged trees trees') :
    (profilesOf root trees').Perm (profilesOf root trees) := by
  have hs : List.Forall₂ Rearranged (trees.flatMap scopes) (trees'.flatMap scopes) :=
    List.rel_flatMap h fun _ _ => Rearranged.scopes
  rw [profilesOf, profilesOf, directly, directly]
  generalize trees.flatMap scopes = ss, trees'.flatMap scopes = ss' at hs
  induction hs
  case nil => exact .refl _
  case cons h _ ih =>
    simp only [List.flatMap_cons, List.flatMap_append]
    exact (h.perm_flatMap_profiles root).append ih

-- Table by table, all that is declared at the top is collected.
theorem perm_given (trees : List Element) :
    ((allGiven speciesEntries trees).map (·.2.element) ++
      (allGiven experimentEntries trees).map (·.2.element)).Perm
        ((directly trees).filter (·.isDeclaration)) := by
  have hmap (es : Element → List Element) :
      (allGiven (fun origin scope => declarationEntries origin (es scope)) trees).map
        (·.2.element) = (trees.reverse.flatMap scopes).flatMap es := by
    simp [allGiven, given, declarationEntries, List.map_flatMap, List.flatMap_assoc,
      Function.comp_def]
  have hscopes : (trees.reverse.flatMap scopes).Perm (trees.flatMap scopes) :=
    (List.reverse_perm trees).flatMap_right _
  have hsum := congrArg₂ (· ++ ·) (hmap Element.speciesDeclarations) (hmap Element.experiments)
  rw [directly, List.filter_flatMap]
  refine (List.Perm.of_eq hsum).trans ((List.flatMap_append_perm ..).trans ?_)
  exact (hscopes.flatMap_right _).trans (.flatMap_left _ fun s _ => perm_declarations s)

end Declarations

namespace DeclarationTree

open Element

mutual

-- The profiles of a tree of declarations that is nested in `owner`, in the order of placement.
def profiles (owner : String) : DeclarationTree → List Profile
  | node e nested => e.profile owner :: profilesAll e.nameOrKeyword nested

def profilesAll (owner : String) : List DeclarationTree → List Profile
  | [] => []
  | t :: ts => profiles owner t ++ profilesAll owner ts

end

theorem profilesAll_eq_flatMap (owner : String) (ts : List DeclarationTree) :
    profilesAll owner ts = ts.flatMap (profiles owner) := by
  induction ts
  case nil => rfl
  case cons t ts hi => rw [profilesAll, hi, List.flatMap_cons]

theorem profiles_ofElement (owner : String) (e : Element) : (ofElement e).profiles owner =
    e.profile owner :: e.survivors.flatMap fun x => (ofElement x).profiles e.nameOrKeyword := by
  rw [ofElement_eq, profiles, profilesAll_eq_flatMap, List.flatMap_map]

mutual

theorem length_profiles (owner : String) :
    (t : DeclarationTree) → (t.profiles owner).length = t.preorder.length
  | node e nested => by simp [profiles, preorder, length_profilesAll e.nameOrKeyword nested]

theorem length_profilesAll (owner : String) :
    (ts : List DeclarationTree) → (profilesAll owner ts).length = (preorderAll ts).length
  | [] => rfl
  | t :: ts => by
    simp [profilesAll, preorderAll, length_profiles owner t, length_profilesAll owner ts]

end

theorem lastOfEach_of_nodup {es : List Element} (h : (es.map (·.nameOrKeyword)).Nodup) :
    lastOfEach es = es := by
  have hv := values_ofList_named id es
  rw [OrderedMap.values, OrderedMap.entries_ofList (by simpa [Function.comp_def] using h)] at hv
  simpa [Function.comp_def] using hv.symm

-- Where no name is declared twice, nothing that is nested gets lost.
theorem perm_profiles {e : Element} {owner : String} (he : e.isDeclaration = true)
    (hn : ((e.profiles owner).map (·.name)).Nodup) :
    ((ofElement e).profiles owner).Perm (e.profiles owner) := by
  induction e using survivors_induction generalizing owner
  case h e ih =>
    rw [profiles_of_isDeclaration he] at hn ⊢
    rw [profiles_ofElement]
    have hn : ((e.children.flatMap (Element.profiles e.nameOrKeyword)).map (·.name)).Nodup :=
      (List.nodup_cons.mp hn).2
    have hp := perm_declarations e
    have hall : e.survivors = e.declarations :=
      lastOfEach_of_nodup ((hp.map _).nodup_iff.mpr (hn.sublist (names_sublist _ _)))
    refine .cons _ ?_
    rw [← flatMap_profiles_filter, hall]
    refine (List.Perm.flatMap_left _ fun x hx => ?_).trans (hp.flatMap_right _)
    have ⟨hd, hc⟩ := isDeclaration_of_mem_declarations hx
    rw [List.map_flatMap] at hn
    exact ih x (hall ▸ hx) hd ((List.nodup_flatMap.mp hn).1 x hc)

end DeclarationTree

namespace Declarations

open Element

variable {root owner : String} {trees : List Element}

-- The profiles of all that is placed for declarations nested in `owner`.
def placedProfiles (owner : String) (Ds : List Declaration) : List Profile :=
  Ds.flatMap fun D => (tree D).profiles owner

theorem placedProfiles_cons (owner : String) (D : Declaration) (Ds : List Declaration) :
    placedProfiles owner (D :: Ds) = D.element.profile owner ::
      (placedProfiles D.element.nameOrKeyword D.nested ++ placedProfiles owner Ds) := by
  rw [placedProfiles, List.flatMap_cons, tree, DeclarationTree.profiles_ofElement, Declaration.nested,
    placedProfiles, List.flatMap_map]
  rfl

theorem length_placedProfiles (owner : String) (Ds : List Declaration) :
    (placedProfiles owner Ds).length = (placed Ds).length := by
  induction Ds
  case nil => rfl
  case cons D Ds hi =>
    rw [placedProfiles, placed, List.flatMap_cons, List.flatMap_cons, List.length_append,
      List.length_append, DeclarationTree.length_profiles]
    exact congrArg _ hi

-- As long as their names differ, a table keeps all declarations that it is given.
theorem map_element_values {es : Element → List Element}
    (h : ((allGiven (fun origin scope => declarationEntries origin (es scope)) trees).map
      ((·.nameOrKeyword) ∘ (·.2.element))).Nodup) :
    (OrderedMap.ofList (allGiven (fun origin scope =>
      declarationEntries origin (es scope)) trees)).values.map (·.element) =
        (allGiven (fun origin scope => declarationEntries origin (es scope)) trees).map
          (·.2.element) := by
  have hkeys : (allGiven (fun origin scope => declarationEntries origin (es scope)) trees).map
      Prod.fst = (allGiven (fun origin scope => declarationEntries origin (es scope)) trees).map
        ((·.nameOrKeyword) ∘ (·.2.element)) := by
    refine List.map_congr_left fun x hx => ?_
    have ⟨_, _, _, _, hx⟩ := mem_allGiven hx
    have ⟨_, _, he⟩ := List.mem_map.mp hx
    exact he ▸ rfl
  rw [OrderedMap.values, OrderedMap.entries_ofList (hkeys ▸ h), List.map_map]
  rfl

theorem perm_all (hn : ((profilesOf root trees).map (·.name)).Nodup) :
    ((ofTrees trees).1.all.map (·.element)).Perm ((directly trees).filter (·.isDeclaration)) := by
  have hgiven := perm_given trees
  have hnames := (hgiven.map (·.nameOrKeyword)).nodup_iff.mpr
    (hn.sublist (names_sublist root (directly trees)))
  rw [List.map_append, List.map_map, List.map_map] at hnames
  have ⟨hspecies, hexperiments, _⟩ := List.nodup_append.mp hnames
  rw [all, List.map_append, species_ofTrees, experiments_ofTrees]
  have hsum := congrArg₂ (· ++ ·) (map_element_values hspecies) (map_element_values hexperiments)
  exact (List.Perm.of_eq hsum).trans hgiven

-- Where no name is declared twice, all that is declared is placed.
theorem perm_placedProfiles (hn : ((profilesOf root trees).map (·.name)).Nodup) :
    (placedProfiles root (ofTrees trees).1.all).Perm (profilesOf root trees) := by
  have hplaced : placedProfiles root (ofTrees trees).1.all = ((ofTrees trees).1.all.map
      (·.element)).flatMap fun e => (DeclarationTree.ofElement e).profiles root := by
    rw [List.flatMap_map]
    rfl
  rw [hplaced, profilesOf, ← flatMap_profiles_filter]
  refine ((perm_all hn).flatMap_right _).trans (.flatMap_left _ fun e he => ?_)
  have ⟨hm, hd⟩ := List.mem_filter.mp he
  rw [profilesOf, List.map_flatMap] at hn
  exact DeclarationTree.perm_profiles hd ((List.nodup_flatMap.mp hn).1 e hm)

end Declarations

-- What is declared by the trees of `r`, on any level.
def Request.profiles (r : Request) : List Profile :=
  match r.trees with
  | [] => []
  | primary :: _ => Declarations.profilesOf primary.modelName r.trees

theorem Request.Rearranged.perm_profiles {r r' : Request} (h : r.Rearranged r') :
    r'.profiles.Perm r.profiles := by
  have ht := h.trees
  rw [profiles, profiles]
  cases hr : r.trees
  case nil =>
    rw [hr] at ht
    rw [List.forall₂_nil_left_iff.mp ht]
  case cons primary imports =>
    rw [hr] at ht
    have ⟨primary', imports', hp, _, hr'⟩ := List.forall₂_cons_left_iff.mp ht
    rw [hr'] at ht ⊢
    simp only [hp.modelName]
    exact Declarations.perm_profilesOf _ ht

namespace Model

open Declarations

variable {m : Model} {owner i j k : Nat} {Ds : List Declaration} {is : List Nat} {o : Description}

-- Each description in the stretch has the profile in its place.
theorem Mirrors.exists_profile (h : Mirrors m owner i Ds is j) (ho : m.get? owner = some o)
    (hi : i ≤ k) (hj : k < j) :
    ∃ d D x o', m.get? k = some d ∧ d.StandsFor D x ∧ m.get? x = some o' ∧
      (placed Ds)[k - i]? = some D.element ∧
      (placedProfiles o.name Ds)[k - i]? = some (D.element.profile o'.name) := by
  induction h generalizing o
  case nil => omega
  case cons owner i j k' d D Ds is hd hs hnest _ hin hir =>
    have hle := hnest.le
    have hlen := hnest.stop_eq
    rw [placed_cons, placedProfiles_cons]
    cases Nat.eq_or_lt_of_le hi
    case inl he =>
      subst he
      exact ⟨d, D, owner, o, hd, hs, ho, by simp⟩
    case inr hlt =>
      have hk : k - i = (k - (i + 1)) + 1 := by omega
      rw [hk, List.getElem?_cons_succ, List.getElem?_cons_succ, ← hs.name]
      have hl := length_placedProfiles d.name D.nested
      cases Nat.lt_or_ge k j
      case inl hkj =>
        have ⟨e, E, x, o', he, hse, hx, hp, hq⟩ := hin hd hlt hkj
        refine ⟨e, E, x, o', he, hse, hx, ?_, ?_⟩
        · rw [List.getElem?_append_left (by omega), hp]
        · rw [List.getElem?_append_left (by omega), hq]
      case inr hkj =>
        have ⟨e, E, x, o', he, hse, hx, hp, hq⟩ := hir ho hkj hj
        have hk' : k - (i + 1) - (placed D.nested).length = k - j := by omega
        refine ⟨e, E, x, o', he, hse, hx, ?_, ?_⟩
        · rw [List.getElem?_append_right (by omega), hk', hp]
        · rw [List.getElem?_append_right (by omega), hl, hk', hq]

-- `d` is a description of `m` with the profile `p`.
structure Shows (m : Model) (d : Description) (p : Profile) : Prop where
  name : d.name = p.name
  kind : DescriptionKind.ofElement? p.kind = some d.kind
  declaredAs : d.declaredAs = p.kind
  facets : d.facets = p.facets
  isAbstract : d.isAbstract = p.facets.isTrue Keyword.virtual
  isOwn : d.isOwn = true
  owner : ∃ x o, d.owner = some x ∧ m.get? x = some o ∧ o.name = p.owner

end Model

namespace Assembler.Linking

open Declarations Model

variable {a : Assembler} {r : Request} (l : Linking a r) {i j : Nat} {p q : Profile}

-- The profiles of the placed descriptions, in the order of their indices.
def profiles : List Profile := placedProfiles l.model.root.name l.declared

-- The description at `i` was placed with the profile `p`.
def Bears (i : Nat) (p : Profile) : Prop := l.base ≤ i ∧ l.profiles[i - l.base]? = some p

theorem perm_profiles (hn : (r.profiles.map (·.name)).Nodup) : l.profiles.Perm r.profiles := by
  have hr : r.profiles = profilesOf l.model.root.name r.trees := by
    rw [l.root_model, Request.profiles, l.trees_eq]
    rfl
  rw [hr] at hn ⊢
  exact perm_placedProfiles hn

theorem nodup_profiles (hn : (r.profiles.map (·.name)).Nodup) :
    (l.profiles.map (·.name)).Nodup :=
  ((l.perm_profiles hn).map _).nodup_iff.mpr hn

theorem length_profiles : l.base + l.profiles.length = l.model.size := by
  rw [profiles, length_placedProfiles, size_model]

theorem exists_bears (hi : l.base ≤ i) (hlt : i < l.model.size) : ∃ p, l.Bears i p := by
  have hl := l.length_profiles
  exact ⟨_, hi, List.getElem?_eq_getElem (by omega)⟩

-- Whatever is declared has a description.
theorem exists_of_mem_profiles (hn : (r.profiles.map (·.name)).Nodup) :
    p ∈ r.profiles ↔ ∃ i, l.Bears i p := by
  rw [← (l.perm_profiles hn).mem_iff]
  constructor
  case mp =>
    intro hp
    have ⟨k, hk⟩ := List.mem_iff_getElem?.mp hp
    exact ⟨l.base + k, Nat.le_add_right .., by rw [Nat.add_sub_cancel_left, hk]⟩
  case mpr => exact fun ⟨_, _, hp⟩ => List.mem_of_getElem? hp

variable {l}

theorem Bears.lt_size (h : l.Bears i p) : i < l.model.size := by
  have hl := l.length_profiles
  have hlt := List.getElem?_eq_some_iff.mp h.2 |>.1
  have hi := h.1
  omega

theorem Bears.exists_shows (h : l.Bears i p) : ∃ d, l.model.get? i = some d ∧ l.model.Shows d p ∧
    l.ownMembers i = p.members := by
  have ⟨d, D, x, o, hd, hs, hx, hplaced, hp⟩ :=
    l.mirrors.exists_profile (get?_rootIndex _) h.1 h.lt_size
  have ⟨e, d₀, he, ⟨_, _, _, hd₀⟩, hlink⟩ := l.places_of_le h.1 hd
  cases he.symm.trans hplaced
  cases h.2.symm.trans hp
  refine ⟨d, hd, ⟨hs.name, hs.kind, hs.declaredAs, hs.facets, ?_, hs.isOwn, x, o, hs.owner, hx, rfl⟩,
    ?_⟩
  · rw [hlink, hd₀]
    rfl
  · rw [ownMembers, hplaced]
    rfl

-- Names tell descriptions apart.
theorem Bears.unique (hn : (r.profiles.map (·.name)).Nodup) (hi : l.Bears i p) (hj : l.Bears j q)
    (h : p.name = q.name) : i = j ∧ p = q := by
  have hnodup := l.nodup_profiles hn
  have hlt := List.getElem?_eq_some_iff.mp hi.2 |>.1
  have hpos : i - l.base = j - l.base := by
    refine (List.getElem?_inj (by simpa using hlt) hnodup).mp ?_
    simp [hi.2, hj.2, h]
  have hbase := hi.1
  have hbase' := hj.1
  refine ⟨by omega, ?_⟩
  have hp := hi.2
  rw [hpos, hj.2] at hp
  exact (Option.some.inj hp).symm

end Assembler.Linking
end ModelAssembly
