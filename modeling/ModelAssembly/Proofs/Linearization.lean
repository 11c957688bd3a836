import ModelAssembly.Proofs.CycleBreaking
/-!
Linearization: one walk through a model takes the links of one kind of description into a hierarchy
and cuts those that would close a cycle.

Main statements: `follows` gives one step of the walk in terms of `breakStep`;
`linearize_eq` gives the model, the order and the diagnostics that linearization comes to, and says
that it never fails on a model whose links and content lie within the model.
-/

open Relation

namespace ModelAssembly

namespace Description

-- The index of the parent of `d`, if the parent is declared in the model.
def declaredParent (d : Description) : Option Nat :=
  match d.parent with
  | some (.declared p) => some p
  | _ => none

theorem declaredParent_eq_some_iff {d : Description} {p : Nat} :
    d.declaredParent = some p ↔ d.parent = some (.declared p) := by
  unfold declaredParent
  split <;> simp_all

end Description

namespace Model

variable {m : Model} {kind : DescriptionKind} {i p x : Nat} {d : Description} {cuts : List Nat}

-- One of the model's own descriptions of the kind is at `i`.
def isKin (m : Model) (kind : DescriptionKind) (i : Nat) : Bool :=
  (m.get? i).any fun d => d.kind = kind && d.isOwn

-- Sends each own description of the kind to its declared parent, if that is of the kind, too.
def kinParent (m : Model) (kind : DescriptionKind) (i : Nat) : Option Nat :=
  (((m.get? i).filter fun d => d.kind = kind && d.isOwn).bind (·.declaredParent)).filter fun p =>
    (m.get? p).any fun e => e.kind = kind

theorem isKin_iff : m.isKin kind i = true ↔
    ∃ d, m.get? i = some d ∧ d.kind = kind ∧ d.isOwn = true := by
  simp [isKin, Option.any_eq_true]

theorem kinParent_eq_some_iff : m.kinParent kind i = some p ↔
    ∃ d e, m.get? i = some d ∧ d.kind = kind ∧ d.isOwn = true ∧ d.parent = some (.declared p) ∧
      m.get? p = some e ∧ e.kind = kind := by
  simp only [kinParent, Option.filter_eq_some_iff, Option.bind_eq_some_iff, Option.any_eq_true,
    Bool.and_eq_true, decide_eq_true_eq, Description.declaredParent_eq_some_iff]
  constructor
  case mp => exact fun ⟨⟨d, ⟨hd, hk, ho⟩, hp⟩, e, he, hke⟩ => ⟨d, e, hd, hk, ho, hp, he, hke⟩
  case mpr => exact fun ⟨d, e, hd, hk, ho, hp, he, hke⟩ => ⟨⟨d, ⟨hd, hk, ho⟩, hp⟩, e, he, hke⟩

theorem isKin_of_kinParent (h : m.kinParent kind i = some p) : m.isKin kind i = true :=
  have ⟨d, _, hd, hk, ho, _⟩ := kinParent_eq_some_iff.mp h
  isKin_iff.mpr ⟨d, hd, hk, ho⟩

-- Gives the descriptions at `cuts` the generic base of the kind as their parent.
def cut (m : Model) (kind : DescriptionKind) (cuts : List Nat) : Model :=
  m.mapDescriptions fun i d =>
    if i ∈ cuts then { d with parent := some (.builtIn kind.base) } else d

theorem cut_nil : m.cut kind [] = m :=
  mapDescriptions_id fun _ _ _ => by simp

theorem cut_cut (h : x ∉ cuts) :
    (m.cut kind cuts).alter x (fun d => { d with parent := some (.builtIn kind.base) }) =
      m.cut kind (cuts ++ [x]) := by
  rw [alter, cut, mapDescriptions_mapDescriptions, cut]
  apply mapDescriptions_congr
  intro i d _
  by_cases hi : i = x
  case pos => simp [hi, h]
  case neg => simp [hi]

section

variable {h : Hierarchy} {e : Description}

theorem extendHierarchy_of_not_kin (hd : m.get? x = some d) (hk : d.kind = kind → d.isOwn = false) :
    extendHierarchy kind (m, h) x = pure (m, h) := by
  have hskip : (d.kind ≠ kind || d.isBuiltIn || !d.isOwn) = true := by
    by_cases hkind : d.kind = kind <;> simp [hkind, hk]
  simp only [extendHierarchy, get_eq_ok_iff.mpr hd, Outcome.ofModel_ok, pure_bind, hskip]
  rfl

theorem extendHierarchy_of_unlinked (hd : m.get? x = some d) (hk : d.kind = kind)
    (ho : d.isOwn = true) (hb : d.isBuiltIn = false)
    (hp : ∀ p, d.parent = some (.declared p) → ∃ e, m.get? p = some e ∧ e.kind ≠ kind) :
    extendHierarchy kind (m, h) x = pure (m, h.addVertex x) := by
  have hgo : (d.kind ≠ kind || d.isBuiltIn || !d.isOwn) = false := by simp [hk, hb, ho]
  simp only [extendHierarchy, get_eq_ok_iff.mpr hd, Outcome.ofModel_ok, pure_bind, hgo]
  cases hpar : d.parent
  case none => rfl
  case some link =>
    cases link
    case builtIn name => rfl
    case declared p =>
      have ⟨e, he, hke⟩ := hp p hpar
      simp [get_eq_ok_iff.mpr he, hke]

theorem extendHierarchy_of_linked (hd : m.get? x = some d) (hk : d.kind = kind)
    (ho : d.isOwn = true) (hb : d.isBuiltIn = false) (hopen : d.isFinalized = false)
    (hp : d.parent = some (.declared p)) (he : m.get? p = some e) (hke : e.kind = kind) :
    extendHierarchy kind (m, h) x =
      if ((h.addVertex x).addEdge p x).2 then pure (m, ((h.addVertex x).addEdge p x).1)
      else ⟨.ok (m.alter x fun d => { d with parent := some (.builtIn kind.base) },
        ((h.addVertex x).addEdge p x).1), [d.inconsistentHierarchy]⟩ := by
  have hgo : (d.kind ≠ kind || d.isBuiltIn || !d.isOwn) = false := by simp [hk, hb, ho]
  have hset : (m.modify x fun d => d.setParent (.builtIn kind.base)) =
      .ok (m.alter x fun d => { d with parent := some (.builtIn kind.base) }) :=
    modify_edit hd hopen _
  simp only [extendHierarchy, get_eq_ok_iff.mpr hd, Outcome.ofModel_ok, pure_bind, hgo, hp,
    get_eq_ok_iff.mpr he]
  cases hadd : (h.addVertex x).addEdge p x
  case mk h' added =>
    cases added
    case true => simp [hke]
    case false =>
      simp [hke, hset]
      rfl

end

-- What linearization relies on: the walk and the links of the own descriptions of the kind stay
-- within the model, and these descriptions are open.
structure Linearizable (m : Model) (kind : DescriptionKind) : Prop where
  walk : ∀ i ∈ m.walk rootIndex, i < m.size
  kin : ∀ i d, m.get? i = some d → d.kind = kind → d.isOwn = true →
    d.isBuiltIn = false ∧ d.isFinalized = false ∧
      ∀ p, d.parent = some (.declared p) → p < m.size

-- `report` tells that the hierarchy of the description at `i` is inconsistent.
def Reports (m : Model) (i : Nat) (report : Diagnostic) : Prop :=
  ∃ d, m.get? i = some d ∧ report = d.inconsistentHierarchy

-- At `x` the walk does what `breakStep` does, and reports what is cut. The links that were cut
-- before are those of `s.2`.
def Follows (m : Model) (kind : DescriptionKind) (s : Hierarchy × List Nat) (x : Nat) : Prop :=
  let s' := breakStep (m.isKin kind) (m.kinParent kind) s x
  ∃ new ds, extendHierarchy kind (m.cut kind s.2, s.1) x = ⟨.ok (m.cut kind s'.2, s'.1), ds⟩ ∧
    s'.2 = s.2 ++ new ∧ List.Forall₂ m.Reports new ds

section

variable {s : Hierarchy × List Nat}

theorem get?_cut : (m.cut kind cuts).get? i = (m.get? i).map fun d =>
    if i ∈ cuts then { d with parent := some (.builtIn kind.base) } else d := by
  simp [cut]

theorem get?_cut_of_get? (hd : m.get? i = some d) : (m.cut kind cuts).get? i =
    some (if i ∈ cuts then { d with parent := some (.builtIn kind.base) } else d) := by
  rw [get?_cut, hd, Option.map_some]

theorem get?_cut_of_mem (hd : m.get? i = some d) (hi : i ∈ cuts) :
    (m.cut kind cuts).get? i = some { d with parent := some (.builtIn kind.base) } := by
  rw [get?_cut_of_get? hd, if_pos hi]

theorem get?_cut_of_not_mem (hd : m.get? i = some d) (hi : i ∉ cuts) :
    (m.cut kind cuts).get? i = some d := by
  rw [get?_cut_of_get? hd, if_neg hi]

theorem follows_of_not_kin (hd : m.get? x = some d) (hk : ¬ m.isKin kind x = true) :
    m.Follows kind s x := by
  have hs : breakStep (m.isKin kind) (m.kinParent kind) s x = s := by simp [breakStep, hk]
  have hno (hkind : d.kind = kind) : d.isOwn = false := by
    simpa using fun ho => hk (isKin_iff.mpr ⟨d, hd, hkind, ho⟩)
  refine ⟨[], [], ?_, by simp [hs], .nil⟩
  rw [hs]
  apply extendHierarchy_of_not_kin (get?_cut_of_get? hd)
  split <;> exact hno

-- Without a link that counts, the description is a vertex and nothing else.
theorem follows_of_unlinked (hl : m.Linearizable kind) (hk : m.isKin kind x = true)
    (hn : x ∈ s.2 ∨ m.kinParent kind x = none) : m.Follows kind s x := by
  have ⟨d, hd, hkind, ho⟩ := isKin_iff.mp hk
  have ⟨hb, _, hrange⟩ := hl.kin x d hd hkind ho
  have hs : breakStep (m.isKin kind) (m.kinParent kind) s x = (s.1.addVertex x, s.2) := by
    cases hn
    case inl hm => simp [breakStep, hk, hm]
    case inr hf => simp [breakStep, hk, hf]
  refine ⟨[], [], ?_, by simp [hs], .nil⟩
  rw [hs]
  by_cases hm : x ∈ s.2
  case pos => exact extendHierarchy_of_unlinked (get?_cut_of_mem hd hm) hkind ho hb (by simp)
  case neg =>
    apply extendHierarchy_of_unlinked (get?_cut_of_not_mem hd hm) hkind ho hb
    intro p hp
    have ⟨e, he⟩ := get?_of_lt_size (hrange p hp)
    have hke : e.kind ≠ kind := by
      intro hke
      have hf := kinParent_eq_some_iff.mpr ⟨d, e, hd, hkind, ho, hp, he, hke⟩
      cases (hn.resolve_left hm).symm.trans hf
    refine ⟨_, get?_cut_of_get? he, ?_⟩
    split <;> exact hke

theorem follows_of_linked (hl : m.Linearizable kind) (hm : x ∉ s.2)
    (hf : m.kinParent kind x = some p) : m.Follows kind s x := by
  have ⟨d, e, hd, hkind, ho, hp, he, hke⟩ := kinParent_eq_some_iff.mp hf
  have hk := isKin_of_kinParent hf
  have ⟨hb, hopen, _⟩ := hl.kin x d hd hkind ho
  have hke' :
      (if p ∈ s.2 then { e with parent := some (.builtIn kind.base) } else e).kind = kind := by
    split <;> exact hke
  have hstep := extendHierarchy_of_linked (h := s.1) (get?_cut_of_not_mem hd hm) hkind ho hb hopen
    hp (get?_cut_of_get? he) hke'
  have hs : breakStep (m.isKin kind) (m.kinParent kind) s x =
      (((s.1.addVertex x).addEdge p x).1,
        if ((s.1.addVertex x).addEdge p x).2 then s.2 else s.2 ++ [x]) := by
    simp [breakStep, hk, hm, hf]
  rw [Follows, hs, hstep]
  cases hadd : ((s.1.addVertex x).addEdge p x).2
  case true => exact ⟨[], [], rfl, by simp, .nil⟩
  case false =>
    refine ⟨[x], [d.inconsistentHierarchy], ?_, by simp, .cons ⟨d, hd, rfl⟩ .nil⟩
    simp [cut_cut hm]

theorem follows (hl : m.Linearizable kind) (hx : x < m.size) : m.Follows kind s x := by
  by_cases hk : m.isKin kind x = true
  case neg =>
    have ⟨d, hd⟩ := get?_of_lt_size hx
    exact follows_of_not_kin hd hk
  case pos =>
    by_cases hm : x ∈ s.2
    case pos => exact follows_of_unlinked hl hk (.inl hm)
    case neg =>
      cases hf : m.kinParent kind x
      case none => exact follows_of_unlinked hl hk (.inr hf)
      case some p => exact follows_of_linked hl hm hf

end

-- What linearization does to the model, and the order that it finds.
structure Linearized (m : Model) (kind : DescriptionKind) (cuts order : List Nat) : Prop where
  cut : ∀ i, i ∈ cuts ↔ LastOfCycle (m.kinParent kind) (m.walk rootIndex) i
  sublist : cuts.Sublist (m.walk rootIndex)
  nodup : cuts.Nodup
  orderNodup : order.Nodup
  mem : ∀ i, i ∈ order ↔ (i ∈ m.walk rootIndex ∧ m.isKin kind i) ∨
    ∃ c ∈ m.walk rootIndex, m.kinParent kind c = some i
  before : ∀ c p, c ∈ m.walk rootIndex → m.kinParent kind c = some p → c ∉ cuts →
    order.idxOf p < order.idxOf c

-- What comes of the links when a walk through the model is over: the hierarchy, and the links that
-- were cut.
def broken (m : Model) (kind : DescriptionKind) : Hierarchy × List Nat :=
  (m.walk rootIndex).foldl (breakStep (m.isKin kind) (m.kinParent kind)) ({}, [])

theorem broken_spec :
    Broken (m.isKin kind) (m.kinParent kind) (m.walk rootIndex) (m.broken kind) :=
  Broken.foldl (fun _ _ hp => isKin_of_kinParent hp) (m.walk rootIndex)

theorem linearize_eq_broken (hl : m.Linearizable kind) :
    ∃ order ds, m.linearize kind = ⟨.ok (m.cut kind (m.broken kind).2, order), ds⟩ ∧
      (m.broken kind).1.order? = some order ∧ List.Forall₂ m.Reports (m.broken kind).2 ds := by
  let step := breakStep (m.isKin kind) (m.kinParent kind)
  -- The state of the walk is what `breakStep` comes to on the part that was walked.
  have ⟨s', ds, hf, hs', hds⟩ := Outcome.foldlM_rule (f := extendHierarchy kind)
    (l := m.walk rootIndex) (s := (m, {}))
    (P := fun pre s ds =>
      s = (m.cut kind (pre.foldl step ({}, [])).2, (pre.foldl step ({}, [])).1) ∧
      List.Forall₂ m.Reports (pre.foldl step ({}, [])).2 ds)
    ⟨by simp [cut_nil], .nil⟩ (by
      intro pre x post s ds hw ⟨hs, hds⟩
      have hx : x < m.size := hl.walk x (by simp [hw])
      have hfollows : m.Follows kind (pre.foldl step ({}, [])) x := follows hl hx
      have ⟨new, ds', he, hnew, hnd⟩ := hfollows
      refine ⟨_, ds', hs ▸ he, ?_⟩
      rw [List.foldl_append]
      refine ⟨rfl, ?_⟩
      rw [List.foldl_cons, List.foldl_nil, hnew]
      exact List.rel_append hds hnd)
  have hb : Broken (m.isKin kind) (m.kinParent kind) (m.walk rootIndex) (m.broken kind) :=
    broken_spec
  have ⟨order, ho, _⟩ := Hierarchy.order?_eq hb.wellFormed
  have hs' : s' = (m.cut kind (m.broken kind).2, (m.broken kind).1) := hs'
  refine ⟨order, ds, ?_, ho, hds⟩
  rw [linearize, Outcome.bind_of_eq hf, hs']
  simp [ho]

theorem linearize_eq (hl : m.Linearizable kind) :
    ∃ cuts order ds, m.linearize kind = ⟨.ok (m.cut kind cuts, order), ds⟩ ∧
      List.Forall₂ m.Reports cuts ds ∧ m.Linearized kind cuts order := by
  have hb : Broken (m.isKin kind) (m.kinParent kind) (m.walk rootIndex) (m.broken kind) :=
    broken_spec
  have ⟨order, ds, he, ho, hds⟩ := linearize_eq_broken hl
  have ⟨order', ho', hn, hm, hr⟩ := Hierarchy.order?_eq hb.wellFormed
  cases ho.symm.trans ho'
  refine ⟨_, order, ds, he, hds, hb.cut, hb.sublist, hb.nodup, hn,
    fun i => (hm i).trans (hb.vertex i), fun c p hc hp hcut => ?_⟩
  exact hr (p, c) ((hb.edge p c).mpr ⟨hc, hp, hcut⟩)

-- A step of the walk that goes through finds a description, and adds none.
theorem lt_of_extendHierarchy {n n' : Model} {h h' : Hierarchy}
    (hs : (extendHierarchy kind (n, h) i).result = .ok (n', h')) :
    i < n.size ∧ n'.size = n.size := by
  have ⟨d, hd, hs⟩ := Outcome.bind_eq_ok_iff.mp hs
  have hd := get_eq_ok_iff.mp (Outcome.ofModel_eq_ok_iff.mp hd)
  refine ⟨lt_size_of_get? hd, ?_⟩
  split at hs
  case isTrue =>
    cases hs
    rfl
  case isFalse =>
    split at hs
    case h_1 p _ =>
      have ⟨e, _, hs⟩ := Outcome.bind_eq_ok_iff.mp hs
      split at hs
      case isTrue =>
        cases hs
        rfl
      case isFalse =>
        split at hs
        case h_1 =>
          cases hs
          rfl
        case h_2 =>
          have ⟨_, _, hs⟩ := Outcome.bind_eq_ok_iff.mp hs
          have ⟨n₁, hm, hs⟩ := Outcome.bind_eq_ok_iff.mp hs
          have ⟨_, d', _, _, hset⟩ := modify_eq_ok_iff.mp (Outcome.ofModel_eq_ok_iff.mp hm)
          cases hs
          simp [← hset, set, size]
    case h_2 =>
      cases hs
      rfl

-- A walk that linearization gets through stays within the model.
theorem lt_of_mem_walk {x : Model × List Nat} (h : (m.linearize kind).result = .ok x)
    (hi : i ∈ m.walk rootIndex) : i < m.size := by
  have ⟨s, hs, _⟩ := Outcome.bind_eq_ok_iff.mp h
  rw [Outcome.result_foldlM] at hs
  have ⟨_, hall⟩ : s.1.size = m.size ∧ ∀ i ∈ m.walk rootIndex, i < m.size := by
    refine foldlM_eq_ok_rule (P := fun pre s => s.1.size = m.size ∧ ∀ i ∈ pre, i < m.size) hs
      ⟨rfl, by simp⟩ ?_
    intro pre x _ s s' _ ⟨hsize, hpre⟩ he
    have ⟨hx, hsize'⟩ := lt_of_extendHierarchy he
    refine ⟨hsize'.trans hsize, ?_⟩
    intro i hi
    cases List.mem_append.mp hi
    case inl hi => exact hpre i hi
    case inr hi => exact List.mem_singleton.mp hi ▸ hsize ▸ hx
  exact hall i hi

end Model
end ModelAssembly
