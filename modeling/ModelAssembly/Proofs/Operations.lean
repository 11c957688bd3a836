import ModelAssembly.Proofs.Run
import ModelAssembly.Proofs.Validation
/-!
The operations that descriptions and models offer to whoever builds them. The assembler has no
others: each of its stages is a chain of operations, so what every operation keeps, a whole assembly
keeps.

Main statements: `Operations.get?_of_finalized`, that nothing happens to a finalized description any
more; `Built.inRange`, that a model which is built by operations contains nothing from outside of
it; `Built.assemble`, that the assembler builds its models in this way.
-/

open Relation

namespace ModelAssembly

namespace Description

variable {d d' : Description}

-- What can be done to a description.
inductive Operation (d : Description) : Description → Prop
  | setParent {link : ParentLink} {d' : Description} : d.setParent link = .ok d' → Operation d d'
  | setOrigin {origin : String} {d' : Description} : d.setOrigin origin = .ok d' → Operation d d'
  | setProvenance {provenance : Provenance} {d' : Description} :
    d.setProvenance provenance = .ok d' → Operation d d'
  | setFacet {name expression : String} {d' : Description} :
    d.setFacet name expression = .ok d' → Operation d d'
  | removeFacet {name : String} {d' : Description} : d.removeFacet name = .ok d' → Operation d d'
  | addMember {m : Member} {d' : Description} : d.addMember m = .ok d' → Operation d d'
  | inheritMembers {parent : String} {ms : List Member} {d' : Description} :
    d.inheritMembers parent ms = .ok d' → Operation d d'
  | close : Operation d d.close

-- The descriptions that can be made without a model to put them into.
inductive Made : Description → Prop
  | new (kind : DescriptionKind) (declaredAs : ElementKind) (name : String) (facets : Facets) :
    Made (.new kind declaredAs name facets)
  | shell {e : Element} {d : Description} : shell? e = some d → Made d
  | builtIn (kind : DescriptionKind) (declaredAs : ElementKind) (name : String)
    (parent : Option String) : Made (.builtIn kind declaredAs name parent)
  | operation {d d' : Description} : Made d → d.Operation d' → Made d'

-- What nobody changes about a description, or only a model that holds it.
def fixed (d : Description) : Description :=
  { d with
    facets := ∅
    members := ∅
    parent := none
    origin := none
    provenance := {}
    isFinalized := false }

theorem keeps_of_edit {change : Description → Description} (h : d.edit change = .ok d')
    (hc : (change d).fixed = d.fixed) :
    d'.fixed = d.fixed ∧ (d.isFinalized = true → d' = d) := by
  have ⟨ho, he⟩ := edit_eq_ok_iff.mp h
  refine ⟨he ▸ hc, fun hf => ?_⟩
  cases hf.symm.trans ho

namespace Operation

-- The lock stops everything.
theorem keeps (h : d.Operation d') : d'.fixed = d.fixed ∧ (d.isFinalized = true → d' = d) := by
  cases h
  case setParent h => exact keeps_of_edit h rfl
  case setOrigin h => exact keeps_of_edit h rfl
  case setProvenance h => exact keeps_of_edit h rfl
  case setFacet h => exact keeps_of_edit h rfl
  case removeFacet h => exact keeps_of_edit h rfl
  case addMember h => exact keeps_of_edit h rfl
  case inheritMembers h => exact keeps_of_edit h rfl
  case close => exact ⟨rfl, close_of_finalized⟩

variable (h : d.Operation d')

include h

theorem kind : d'.kind = d.kind := by
  have hk := congrArg Description.kind h.keeps.1
  exact hk

-- Only a model gives a description content.
theorem micro : d'.micro = d.micro := by
  have hm := congrArg Description.micro h.keeps.1
  exact hm

-- Only a model gives a description an owner.
theorem owner : d'.owner = d.owner := by
  have ho := congrArg Description.owner h.keeps.1
  exact ho

end Operation

theorem exists_new_of_shell? {e : Element} (h : shell? e = some d) : ∃ kind,
    d = { new kind e.kind e.nameOrKeyword e.facets with provenance := e.provenance } := by
  unfold shell? at h
  split at h
  case h_1 => cases h
  case h_2 => cases h
  case h_3 kind _ _ => exact ⟨kind, (Option.some.inj h).symm⟩

theorem Made.micro (h : d.Made) : d.micro = [] := by
  induction h
  case new => rfl
  case shell hs =>
    have ⟨_, hd⟩ := exists_new_of_shell? hs
    exact hd ▸ rfl
  case builtIn => rfl
  case operation ho hi => exact ho.micro.trans hi

end Description

namespace Model

open Description

variable {m n g : Model} {i : Nat} {d : Description} {name : String}

-- What can be done to a model, apart from grafting another one.
inductive Operation (m : Model) : Model → Prop
  | add {owner : Nat} {d : Description} {n : Model} :
    d.Made → m.add owner d = .ok n → Operation m n
  | change {i : Nat} {d d' : Description} :
    m.get? i = some d → d.Operation d' → Operation m (m.set i d')
  | buildTypes {n : Model} : m.buildTypes = .ok n → Operation m n
  | describe (knownAs : Option String) (projectPath modelPath : String)
    (importedModels alternatePaths microSpeciesNames : OrderedSet String) :
    Operation m { m with
      knownAs, projectPath, modelPath, importedModels, alternatePaths, microSpeciesNames }

abbrev Operations : Model → Model → Prop := ReflTransGen Operation

-- The models that can be built.
inductive Built : Model → Prop
  | ofRoot {root : Description} {registry : Registry} {m : Model} :
    root.Made → ofRoot root registry = .ok m → Built m
  | operation {m n : Model} : Built m → m.Operation n → Built n
  | graft {m n g : Model} {name : String} : Built m → Built g → m.graft name g = .ok n → Built n

theorem Contained.grow {owner : Nat} {roots : List Nat} {ds : List Description}
    (h : m.Contained) (hr : ∀ j ∈ roots, j < m.size + ds.length)
    (hds : ∀ d ∈ ds, ∀ j ∈ d.micro, j < m.size + ds.length) :
    (m.grow owner roots ds).Contained := by
  intro i d hd j hj
  rw [size_grow]
  cases Nat.lt_or_ge i m.size
  case inr hi =>
    rw [get?_grow_right _ _ hi] at hd
    exact hds d (List.mem_of_getElem? hd) j hj
  case inl hi =>
    have ⟨e, he⟩ := get?_of_lt_size hi
    have hle : m.size ≤ m.size + ds.length := Nat.le_add_right ..
    rw [get?_grow_of_lt _ _ _ _ hi, he, Option.map_some, Option.some.injEq] at hd
    subst hd
    split at hj
    case isFalse => exact Nat.lt_of_lt_of_le (h i e he j hj) hle
    case isTrue =>
      cases List.mem_append.mp hj
      case inl hj => exact Nat.lt_of_lt_of_le (h i e he j hj) hle
      case inr hj => exact hr j hj

theorem Contained.operation (h : m.Contained) (ho : m.Operation n) : n.Contained := by
  cases ho
  case add d hd ha =>
    rw [add_eq_ok ha]
    refine h.grow (by simp) fun e he j hj => ?_
    cases List.mem_singleton.mp he
    simp [hd.micro] at hj
  case change i d d' hd hop =>
    intro j e he k hk
    have hsize : (m.set i d').size = m.size := by simp [set, size]
    rw [get?_set hd] at he
    rw [hsize]
    split at he
    case isTrue =>
      cases he
      exact h i d hd k (hop.micro ▸ hk)
    case isFalse => exact h j e he k hk
  case buildTypes hb =>
    obtain ⟨types, hn⟩ := buildTypes_eq_ok hb
    exact hn ▸ h
  case describe => exact h

theorem Contained.graft (hm : m.Contained) (hg : g.Contained) (h : m.graft name g = .ok n) :
    n.Contained := by
  obtain ⟨_, _, hn⟩ := graft_eq_ok_iff.mp h
  have hlen : (graftBlock m.size [(name, g)]).length = g.size := by simp [graftBlock]
  have hpos := g.size_pos
  have hgrow : (m.grow rootIndex [m.size] (graftBlock m.size [(name, g)])).Contained := by
    refine hm.grow (by simpa [hlen] using hpos) fun d hd j hj => ?_
    rw [graftBlock_singleton] at hd
    obtain ⟨k, e, he, rfl⟩ := exists_of_mem_shifted hd
    obtain ⟨c, hc, hcj⟩ := List.mem_map.mp hj
    have hlt := hg k e he c hc
    omega
  exact hn ▸ hgrow

namespace Built

theorem contained (h : m.Built) : m.Contained := by
  induction h
  case ofRoot root registry m hr ho =>
    unfold Model.ofRoot at ho
    split at ho
    case isFalse => cases ho
    case isTrue =>
      cases ho
      intro i d hd j hj
      have hd : d = root := List.mem_singleton.mp (List.mem_of_getElem? hd)
      simp [hd, hr.micro] at hj
  case operation ho hi => exact hi.operation ho
  case graft hg hm hi => exact hm.graft hi hg

theorem inRange (h : m.Built) (hp : ∀ i j, m.Extends i j → j < m.size) : m.InRange :=
  h.contained.inRange hp

theorem operations (h : m.Built) (ho : m.Operations n) : n.Built := by
  induction ho
  case refl => exact h
  case tail _ ho hi => exact hi.operation ho

end Built

-- A finalized description cannot be an owner.
theorem isFinalized_of_add {owner : Nat} {o : Description} (h : m.add owner d = .ok n)
    (ho : m.get? owner = some o) : o.isFinalized = false := by
  simp only [add, ho] at h
  obtain ⟨_, he, _⟩ := bind_eq_ok_iff.mp h
  exact (edit_eq_ok_iff.mp he).1

theorem get?_of_add {owner : Nat} {e : Description} (h : m.add owner e = .ok n)
    (hd : m.get? i = some d) (hf : d.isFinalized = true) : n.get? i = some d := by
  have hi : i ≠ owner := by
    intro hi
    cases hf.symm.trans (isFinalized_of_add h (hi ▸ hd))
  rw [add_eq_ok h, get?_grow_left _ _ (lt_size_of_get? hd) hi, hd]

theorem Operation.get?_of_finalized (h : m.Operation n) (hd : m.get? i = some d)
    (hf : d.isFinalized = true) : n.get? i = some d := by
  cases h
  case add ha => exact get?_of_add ha hd hf
  case change j e e' he hop =>
    rw [get?_set he]
    split
    case isTrue hi =>
      cases hd.symm.trans (hi ▸ he)
      rw [hop.keeps.2 hf]
    case isFalse => exact hd
  case buildTypes hb =>
    have ⟨types, hn⟩ := buildTypes_eq_ok hb
    exact hn ▸ hd
  case describe => exact hd

namespace Operations

theorem get?_of_finalized (h : m.Operations n) (hd : m.get? i = some d)
    (hf : d.isFinalized = true) : n.get? i = some d := by
  induction h
  case refl => exact hd
  case tail _ ho hi => exact ho.get?_of_finalized hi hf

-- A loop of chains of operations is one chain.
theorem of_foldlM {ε σ β : Type} {v : σ → Model} {f : σ → β → Except ε σ} {l : List β} {s s' : σ}
    (hf : ∀ s x s', f s x = .ok s' → (v s).Operations (v s')) (h : l.foldlM f s = .ok s') :
    (v s).Operations (v s') :=
  foldlM_eq_ok_rule (P := fun _ t => (v s).Operations (v t)) h .refl
    fun _ x _ s s' _ hs he => hs.trans (hf s x s' he)

theorem of_modify {change : Description → Except ModelError Description}
    (hc : ∀ d d', change d = .ok d' → d.Operation d') (h : m.modify i change = .ok n) :
    m.Operations n := by
  have ⟨d, d', hd, he, hn⟩ := modify_eq_ok_iff.mp h
  exact hn ▸ .single (.change hd (hc d d' he))

theorem of_inherit (h : m.inherit i = .ok n) : m.Operations n := by
  have ⟨_, _, h⟩ := bind_eq_ok_iff.mp h
  split at h
  case h_1 => exact Except.ok.inj h ▸ .refl
  case h_2 => exact of_modify (fun _ _ => .inheritMembers) h

theorem of_addMembers {ms : List Member} (h : (m.addMembers i ms).result = .ok n) :
    m.Operations n := by
  rw [addMembers, Outcome.result_foldlM] at h
  refine of_foldlM (v := id) (fun m x n h => ?_) h
  rw [result_addMember] at h
  exact of_modify (fun _ _ => .addMember) (mapError_eq_ok_iff.mp h)

theorem of_addOwnMembers {globals : List Member} {nodes : List (Nat × Element)}
    (h : (m.addOwnMembers globals nodes).result = .ok n) : m.Operations n := by
  have ⟨k, hk, h⟩ := Outcome.bind_eq_ok_iff.mp h
  rw [Outcome.result_foldlM] at h
  exact (of_addMembers hk).trans (of_foldlM (v := id) (fun _ _ _ => of_addMembers) h)

theorem of_extendHierarchy {kind : DescriptionKind} {s s' : Model × Hierarchy}
    (h : (extendHierarchy kind s i).result = .ok s') : s.1.Operations s'.1 := by
  have ⟨_, _, h⟩ := Outcome.bind_eq_ok_iff.mp h
  split at h
  case isTrue => exact Except.ok.inj h ▸ .refl
  case isFalse =>
    split at h
    case h_2 => exact Except.ok.inj h ▸ .refl
    case h_1 =>
      have ⟨_, _, h⟩ := Outcome.bind_eq_ok_iff.mp h
      split at h
      case isTrue => exact Except.ok.inj h ▸ .refl
      case isFalse =>
        split at h
        case h_1 => exact Except.ok.inj h ▸ .refl
        case h_2 =>
          have ⟨_, _, h⟩ := Outcome.bind_eq_ok_iff.mp h
          have ⟨n, hn, h⟩ := Outcome.bind_eq_ok_iff.mp h
          have hs := of_modify (fun _ _ => .setParent) (Outcome.ofModel_eq_ok_iff.mp hn)
          exact Except.ok.inj h ▸ hs

theorem of_linearize {kind : DescriptionKind} {x : Model × List Nat}
    (h : (m.linearize kind).result = .ok x) : m.Operations x.1 := by
  have ⟨⟨k, hierarchy⟩, hk, h⟩ := Outcome.bind_eq_ok_iff.mp h
  rw [Outcome.result_foldlM] at hk
  have hs : m.Operations k := of_foldlM (v := Prod.fst) (fun _ _ _ => of_extendHierarchy) hk
  cases ho : hierarchy.order?
  case none => simp [ho, Outcome.fail] at h
  case some order =>
    simp only [ho] at h
    exact Except.ok.inj h ▸ hs

theorem of_finalize {passed : Bool} (h : (m.finalize i).result = .ok (n, passed)) :
    m.Operations n := by
  have ⟨d, hd, h⟩ := Outcome.bind_eq_ok_iff.mp h
  have hd := get_eq_ok_iff.mp (Outcome.ofModel_eq_ok_iff.mp hd)
  split at h
  case isTrue =>
    cases h
    exact .refl
  case isFalse =>
    have ⟨_, _, h⟩ := Outcome.bind_eq_ok_iff.mp h
    cases h
    exact .single (.change hd .close)

theorem of_finalizeAll {passed : Bool} (h : m.finalizeAll.result = .ok (n, passed)) :
    m.Operations n := by
  have ⟨k, hk, h⟩ := Outcome.bind_eq_ok_iff.mp h
  rw [Outcome.result_foldlM] at hk
  refine .trans (of_foldlM (v := id) (fun m i n h => ?_) hk) (of_finalize h)
  have ⟨⟨n', passed⟩, hf, h⟩ := Outcome.bind_eq_ok_iff.mp h
  cases h
  exact of_finalize hf

theorem of_concludeExperiment (h : (Assembler.concludeExperiment m i).result = .ok n) :
    m.Operations n := by
  have ⟨k, hk, h⟩ := Outcome.bind_eq_ok_iff.mp h
  have ⟨⟨k', passed⟩, hf, h⟩ := Outcome.bind_eq_ok_iff.mp h
  have hs := (of_inherit (Outcome.ofModel_eq_ok_iff.mp hk)).trans (of_finalize hf)
  cases passed
  case true => exact Except.ok.inj h ▸ hs
  case false =>
    have ⟨_, _, h⟩ := Outcome.bind_eq_ok_iff.mp h
    cases h

theorem of_addScheduler (h : m.addScheduler = .ok n) : m.Operations n := by
  have hempty : m.emptyScheduler.Made :=
    .operation (.operation (.operation (.new ..) (.setParent rfl)) (.setOrigin rfl))
      (.setProvenance rfl)
  unfold addScheduler at h
  split at h
  case isFalse => exact Except.ok.inj h ▸ .refl
  case isTrue =>
    obtain ⟨⟨k, s⟩, hr, h⟩ := bind_eq_ok_iff.mp h
    obtain ⟨hk, hmade⟩ : m.Operations k ∧ s.Made := by
      refine foldlM_eq_ok_rule (P := fun _ x => m.Operations x.1 ∧ x.2.Made) hr ⟨.refl, hempty⟩ ?_
      rintro _ facet _ ⟨n, s⟩ x' _ ⟨hx, hmade⟩ he
      simp only [relocate] at he
      split at he
      case h_1 =>
        cases he
        exact ⟨hx, hmade⟩
      case h_2 =>
        obtain ⟨y, hy, he⟩ := bind_eq_ok_iff.mp he
        obtain ⟨t, ht, he⟩ := bind_eq_ok_iff.mp he
        cases he
        exact ⟨hx.trans (of_modify (fun _ _ => .removeFacet) hy), hmade.operation (.setFacet ht)⟩
    simp only at h
    split at h
    case h_1 =>
      obtain ⟨s', hs, h⟩ := bind_eq_ok_iff.mp h
      exact hk.tail (.add (hmade.operation (.inheritMembers hs)) h)
    case h_2 => exact hk.tail (.add hmade h)

end Operations
end Model

namespace Placement

open Model

variable {p q : Placement} {owner : Nat} {origin : String}

theorem operations_of_addShell {e : Element} {shell : Description} (hs : shell.Made)
    (h : p.addShell owner origin e shell = .ok q) : p.model.Operations q.model := by
  have ⟨d, hd, h⟩ := bind_eq_ok_iff.mp h
  have ⟨m, hm, h⟩ := bind_eq_ok_iff.mp h
  exact Except.ok.inj h ▸ .single (.add (hs.operation (.setOrigin hd)) hm)

mutual

theorem operations_of_place : {owner : Nat} → {p q : Placement} → (t : DeclarationTree) →
    (place owner origin p t).result = .ok q → p.model.Operations q.model
  | owner, p, q, .node e nested => by
    intro h
    rw [place] at h
    split at h
    case h_1 => exact Except.ok.inj h ▸ .refl
    case h_2 shell hs =>
      have ⟨p', hp, h⟩ := Outcome.bind_eq_ok_iff.mp h
      have ⟨_, _, h⟩ := Outcome.bind_eq_ok_iff.mp h
      have ho := operations_of_addShell (.shell hs) (Outcome.ofModel_eq_ok_iff.mp hp)
      exact ho.trans (operations_of_placeAll nested h)

theorem operations_of_placeAll : {owner : Nat} → {p q : Placement} → (ts : List DeclarationTree) →
    (placeAll owner origin p ts).result = .ok q → p.model.Operations q.model
  | owner, p, q, [] => by
    intro h
    rw [placeAll] at h
    exact Except.ok.inj h ▸ .refl
  | owner, p, q, t :: ts => by
    intro h
    rw [placeAll] at h
    have ⟨p', hp, h⟩ := Outcome.bind_eq_ok_iff.mp h
    exact (operations_of_place t hp).trans (operations_of_placeAll ts h)

end

theorem operations_of_ofDeclarations {m : Model} {ds : Declarations}
    (h : (ofDeclarations m ds).result = .ok q) : m.Operations q.model := by
  have ⟨p, hp, h⟩ := Outcome.bind_eq_ok_iff.mp h
  rw [Outcome.result_foldlM] at hp
  have hs : m.Operations p.model :=
    Operations.of_foldlM (v := Placement.model) (fun _ _ _ => operations_of_place _) hp
  exact Except.ok.inj h ▸ hs.tail (.describe ..)

theorem operations_of_linkParents {m : Model} (h : p.linkParents = .ok m) : p.model.Operations m :=
  Operations.of_foldlM (v := id) (fun _ _ _ => Operations.of_modify fun _ _ => .setParent) h

end Placement

namespace Assembler

open Model

variable {a : Assembler} {r : Request} {m : Model}

theorem built_emptyModel {primary : Element} {imports : List Element} {facets : Facets}
    (h : a.emptyModel r primary imports facets = .ok m) : m.Built := by
  have ⟨root, hr, h⟩ := bind_eq_ok_iff.mp h
  have ⟨d₁, h₁, hr⟩ := bind_eq_ok_iff.mp hr
  have ⟨d₂, h₂, hr⟩ := bind_eq_ok_iff.mp hr
  have ⟨n, hn, h⟩ := bind_eq_ok_iff.mp h
  have hmade : root.Made :=
    .operation (.operation (.operation (.new ..) (.setParent h₁)) (.setOrigin h₂))
      (.setProvenance hr)
  exact Except.ok.inj h ▸ .operation (.ofRoot hmade hn) (.describe ..)

theorem built_foldlM_addGraft {es : List (String × Model)} {n : Model} (hm : m.Built)
    (hg : ∀ g ∈ es, g.2.Built) (h : (es.foldlM addGraft m).result = .ok n) : n.Built := by
  rw [Outcome.result_foldlM] at h
  refine foldlM_eq_ok_rule (P := fun _ s => s.Built) h hm ?_
  intro pre g post s s' he hs hs'
  exact hs.graft (hg g (by simp [he])) (mapError_eq_ok_iff.mp hs')

-- Up to linking, a model is built by operations and by grafting.
theorem Linking.built_model (l : Linking a r) (hg : ∀ g ∈ r.grafts.entries, g.2.Built) :
    l.model.Built :=
  ((built_foldlM_addGraft (built_emptyModel l.start_eq) hg l.grafted_eq).operations
    (Placement.operations_of_ofDeclarations l.placement_eq)).operations
      (Placement.operations_of_linkParents l.model_eq)

-- After linking, too, all that happens to a model is operations.
theorem Run.operations (run : Run a r m) : Operations run.model m := by
  have hx := run.merged_eq
  rw [Outcome.result_foldlM] at hx
  have hscheduled : run.merged.Operations run.scheduled := by
    have hs := run.scheduled_eq
    split at hs
    case isTrue => exact .of_addScheduler hs
    case isFalse => exact Except.ok.inj hs ▸ .refl
  calc Operations run.model run.complemented := .of_addOwnMembers run.result_addOwnMembers
    Operations _ run.inherited := .of_inherit run.inherited_eq
    Operations _ run.species.1 := .of_linearize run.species_eq
    Operations _ run.speciesMerged :=
      .of_foldlM (v := id) (fun _ _ _ => .of_inherit) run.speciesMerged_eq
    Operations _ run.experiments.1 := .of_linearize run.experiments_eq
    Operations _ run.merged :=
      .of_foldlM (v := id) (fun _ _ _ => .of_concludeExperiment) hx
    Operations _ run.scheduled := hscheduled
    Operations _ run.typed := .single (.buildTypes run.typed_eq)
    Operations _ m := .of_finalizeAll run.finalized_eq

end Assembler

-- Assembling is one more way of building a model.
theorem Model.Built.assemble {a : Assembler} {r : Request} {m : Model}
    (hg : ∀ g ∈ r.grafts.entries, g.2.Built) (h : (a.assemble r).result = .ok m) : m.Built := by
  have ⟨run⟩ := Assembler.exists_run h
  exact (run.toLinking.built_model hg).operations run.operations

end ModelAssembly
