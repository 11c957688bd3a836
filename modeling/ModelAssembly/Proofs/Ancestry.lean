import ModelAssembly.Proofs.Linearization
import ModelAssembly.Proofs.ParentLinks
import Mathlib.Data.Fintype.Card
import Mathlib.Data.Fintype.EquivFin
/-!
Ancestry: what cutting links makes of the parents in a linked model. Experiments extend experiments
only, and a graft keeps to itself, so that no cycle is left once the species and the experiments are
linearized.

Main statements: `linearize_breaks_cycles`; `cycle_left_in_warren` has a graft that keeps its cycle.
`acyclic_of_links` and `exists_descends` give the parents of whatever model has the links that
remain.
-/

open Relation

namespace ModelAssembly

namespace Model

variable {m : Model} {kind other : DescriptionKind} {i j : Nat} {cuts order : List Nat}

-- Following parents from `i` ends at the built-in description `name`.
inductive Descends (m : Model) : Nat → String → Prop
  | builtIn {i : Nat} {d : Description} {name : String} : m.get? i = some d →
    d.parent = some (.builtIn name) → Descends m i name
  | declared {i j : Nat} {d : Description} {name : String} : m.get? i = some d →
    d.parent = some (.declared j) → Descends m j name → Descends m i name

-- Where every chain of parents stays within `O` or leaves for a registered description, and none
-- leads back, all chains from `O` end at a registered description.
theorem exists_descends {O : Nat → Prop} (hm : ∀ i, O i → ¬ TransGen m.Extends i i)
    (hO : ∀ i, O i → ∃ d link, m.get? i = some d ∧ d.parent = some link ∧
      (∀ name, link = .builtIn name → (m.registry.lookup name).isSome) ∧
      ∀ j, link = .declared j → O j)
    (hi : O i) : ∃ name, m.Descends i name ∧ (m.registry.lookup name).isSome := by
  let below (x y : Fin m.size) := O y ∧ TransGen m.Extends y x
  have : IsTrans (Fin m.size) below := ⟨fun _ _ _ hxy hyz => ⟨hyz.1, hyz.2.trans hxy.2⟩⟩
  have : Std.Irrefl below := ⟨fun x hx => hm x hx.1 hx.2⟩
  have hwf : WellFounded below := Finite.wellFounded_of_trans_of_irrefl below
  have hall (x : Fin m.size) :
      O x → ∃ name, m.Descends x name ∧ (m.registry.lookup name).isSome := by
    induction x using hwf.induction
    case h x ih =>
      intro hx
      have ⟨d, link, hd, hp, hb, hl⟩ := hO x hx
      cases link
      case builtIn name => exact ⟨name, .builtIn hd hp, hb name rfl⟩
      case declared j =>
        have hj := hl j rfl
        have ⟨e, _, he, _⟩ := hO j hj
        have ⟨name, hn, hs⟩ := ih ⟨j, lt_size_of_get? he⟩ ⟨hx, .single ⟨d, hd, hp⟩⟩ hj
        exact ⟨name, .declared hd hp hn, hs⟩
  have ⟨d, _, hd, _⟩ := hO i hi
  exact hall ⟨i, lt_size_of_get? hd⟩ hi

-- A model whose indices are in range and whose parents never lead back.
structure Sound (m : Model) : Prop where
  inRange : m.InRange
  acyclic : m.Acyclic

-- Two descriptions that linearization treats alike, but for links that were cut.
def SameKin (d d' : Description) : Prop :=
  d'.bare = d.bare ∧ (d'.parent = d.parent ∨ ∃ name, d'.parent = some (.builtIn name))

theorem SameKin.trans {a b c : Description} (h₁ : SameKin a b) (h₂ : SameKin b c) :
    SameKin a c := by
  refine ⟨h₂.1.trans h₁.1, ?_⟩
  cases h₂.2
  case inl he => exact he ▸ h₁.2
  case inr he => exact .inr he

theorem InRange.parent_of_changed {m' : Model} (h : m.InRange) (hc : Changed SameKin m m')
    (i j : Nat) (he : m'.Extends i j) : j < m'.size := by
  have ⟨d', hd', hp⟩ := he
  have ⟨d, hd, _, hsame⟩ := hc.get?_rev hd'
  rw [hc.size]
  cases hsame
  case inl hsame => exact h.parent i j ⟨d, hd, hsame ▸ hp⟩
  case inr hsame =>
    have ⟨_, hbuiltIn⟩ := hsame
    cases hp.symm.trans hbuiltIn

theorem walk_of_changed {m' : Model} (hc : Changed SameKin m m') (i : Nat) :
    m'.walk i = m.walk i := by
  have ⟨f, hf, hsame⟩ := hc
  have hm : m' = m.mapDescriptions fun i d => { f i d with micro := d.micro } := by
    rw [hf]
    apply mapDescriptions_congr
    intro i d hd
    have hm := Description.micro_of_bare (hsame i d hd).1
    simp [← hm]
  rw [hm]
  exact walk_mapDescriptions fun _ _ => rfl

theorem Linearizable.of_changed {m' : Model} (h : m.Linearizable kind) (hc : Changed SameKin m m')
    (hopen : ∀ i d, m'.get? i = some d → m'.isKin kind i = true → d.isFinalized = false) :
    m'.Linearizable kind where
  walk i hi := by
    have hw := walk_of_changed hc rootIndex
    rw [hc.size]
    exact h.walk i (hw ▸ hi)
  kin i d' hd' hk ho := by
    have ⟨d, hd, hbare, hpar⟩ := hc.get?_rev hd'
    have hk' := Description.kind_of_bare hbare
    have ho' := Description.isOwn_of_bare hbare
    have hb' := Description.isBuiltIn_of_bare hbare
    have ⟨hb, _, hp⟩ := h.kin i d hd (hk'.symm.trans hk) (ho'.symm.trans ho)
    refine ⟨hb'.trans hb, hopen i d' hd' (isKin_iff.mpr ⟨d', hd', hk, ho⟩), ?_⟩
    intro p hp'
    rw [hc.size]
    cases hpar
    case inl he => exact hp p (he.symm.trans hp')
    case inr he =>
      have ⟨name, he⟩ := he
      cases he.symm.trans hp'

-- What linearization goes by is not changed.
theorem isKin_of_changed {m' : Model} (hc : Changed SameKin m m') :
    m'.isKin kind i = m.isKin kind i := by
  have ⟨f, hf, hs⟩ := hc
  subst hf
  cases hd : m.get? i
  case none => simp [isKin, hd]
  case some d =>
    have hb := (hs i d hd).1
    simp [isKin, hd, Description.kind_of_bare hb, Description.isOwn_of_bare hb]

-- A link that is there was there before.
theorem kinParent_of_changed {m' : Model} (hc : Changed SameKin m m')
    (h : m'.kinParent kind i = some j) : m.kinParent kind i = some j := by
  have ⟨d', e', hd', hk', ho', hp', he', hke'⟩ := kinParent_eq_some_iff.mp h
  have ⟨d, hd, hb, hp⟩ := hc.get?_rev hd'
  have ⟨e, he, hbe, _⟩ := hc.get?_rev he'
  refine kinParent_eq_some_iff.mpr ⟨d, e, hd, ?_, ?_, ?_, he, ?_⟩
  case refine_1 => exact (Description.kind_of_bare hb).symm.trans hk'
  case refine_2 => exact (Description.isOwn_of_bare hb).symm.trans ho'
  case refine_3 =>
    cases hp
    case inl hp => exact hp.symm.trans hp'
    case inr hp =>
      have ⟨_, hp⟩ := hp
      cases hp.symm.trans hp'
  case refine_4 => exact (Description.kind_of_bare hbe).symm.trans hke'

theorem changed_cut (m : Model) (kind : DescriptionKind) (cuts : List Nat) :
    Changed SameKin m (m.cut kind cuts) := by
  refine ⟨_, rfl, ?_⟩
  intro i d _
  by_cases hi : i ∈ cuts
  case pos => simp [SameKin, hi, Description.bare]
  case neg => simp [SameKin, hi]

theorem walk_cut : (m.cut kind cuts).walk i = m.walk i :=
  walk_mapDescriptions fun i d => by split <;> rfl

theorem extends_cut : (m.cut kind cuts).Extends i j ↔ m.Extends i j ∧ i ∉ cuts := by
  simp only [Extends, get?_cut]
  by_cases hi : i ∈ cuts
  case pos =>
    simp only [hi, if_true, not_true_eq_false, and_false, iff_false]
    intro ⟨d, hd, hp⟩
    have ⟨e, _, he⟩ := Option.map_eq_some_iff.mp hd
    subst he
    cases hp
  case neg => simp [hi]

theorem extends_cut_cut {cuts' : List Nat} : ((m.cut kind cuts).cut other cuts').Extends i j ↔
    m.Extends i j ∧ i ∉ cuts ∧ i ∉ cuts' := by
  rw [extends_cut, extends_cut, and_assoc]

-- Cutting links of one kind leaves those of the others.
theorem kinParent_cut (hne : other ≠ kind) (hc : ∀ i ∈ cuts, m.isKin kind i = true) :
    (m.cut kind cuts).kinParent other = m.kinParent other := by
  have hkind (p : Nat) : ((m.cut kind cuts).get? p).any (fun e => e.kind = other) =
      (m.get? p).any fun e => e.kind = other := by
    rw [get?_cut]
    cases m.get? p
    case none => rfl
    case some e => by_cases hp : p ∈ cuts <;> simp [hp]
  funext i
  simp only [kinParent, hkind]
  congr 2
  rw [get?_cut]
  by_cases hi : i ∈ cuts
  case neg => simp [hi]
  case pos =>
    obtain ⟨d, hd, hk, _⟩ := isKin_iff.mp (hc i hi)
    have hko : ¬ kind = other := fun he => hne he.symm
    simp [hd, hi, Option.filter, hk, hko]

theorem isKin_cut : (m.cut kind cuts).isKin other i = m.isKin other i := by
  rw [isKin, isKin, get?_cut]
  cases m.get? i
  case none => rfl
  case some d => by_cases hi : i ∈ cuts <;> simp [hi, Description.isOwn]

theorem Linearized.isKin (h : m.Linearized kind cuts order) (hi : i ∈ cuts) :
    m.isKin kind i = true :=
  have ⟨_, hp, _⟩ := TransGen.head'_iff.mp ((h.cut i).mp hi).cycle
  isKin_of_kinParent hp

-- Linearization finds the same whether links of another kind were cut before or not.
theorem Linearized.of_cut {experiments : List Nat} (hne : other ≠ kind)
    (hc : ∀ i ∈ cuts, m.isKin kind i = true)
    (h : (m.cut kind cuts).Linearized other experiments order) :
    m.Linearized other experiments order := by
  have hp := kinParent_cut hne hc
  have hw : (m.cut kind cuts).walk rootIndex = m.walk rootIndex := walk_cut
  exact ⟨fun i => hp ▸ hw ▸ h.cut i, hw ▸ h.sublist, h.nodup, h.orderNodup,
    fun i => hp ▸ hw ▸ isKin_cut (m := m) ▸ h.mem i, fun c p => hp ▸ hw ▸ h.before c p⟩

theorem isKin_unique (h : m.isKin kind i = true) (h' : m.isKin other i = true) : kind = other := by
  have ⟨d, hd, hk, _⟩ := isKin_iff.mp h
  have ⟨d', hd', hk', _⟩ := isKin_iff.mp h'
  cases hd.symm.trans hd'
  exact hk.symm.trans hk'

end Model

namespace Assembler.Linking

variable {a : Assembler} {r : Request} (l : Linking a r) {kind : DescriptionKind} {i j : Nat}
  {cuts order : List Nat} {n : Model}

theorem kind_root : l.model.root.kind = .model := by
  rw [l.root_model]
  rfl

-- The own species and experiments are the placed descriptions.
theorem placed_of_isKin (hk : kind ≠ .model) (h : l.model.isKin kind i = true) :
    l.base ≤ i ∧ i < l.model.size := by
  have ⟨d, hd, hkind, ho⟩ := Model.isKin_iff.mp h
  have h0 : i ≠ 0 := by
    intro he
    have hroot := Model.root_eq_iff.mpr (he ▸ hd)
    exact hk (hkind.symm.trans (hroot ▸ l.kind_root))
  exact ⟨(l.isOwn_iff (Nat.pos_of_ne_zero h0) hd).mp ho, Model.lt_size_of_get? hd⟩

theorem isKin_of_placed (hi : l.base ≤ i) (hlt : i < l.model.size) :
    l.model.isKin .species i = true ∨ l.model.isKin .experiment i = true := by
  have ⟨d, hd⟩ := Model.get?_of_lt_size hlt
  have hf := (l.fresh_of_le hi hd).1
  exact hf.kind.imp (fun hk => Model.isKin_iff.mpr ⟨d, hd, hk, hf.isOwn⟩)
    fun hk => Model.isKin_iff.mpr ⟨d, hd, hk, hf.isOwn⟩

theorem linearizable (hw : ∀ i ∈ l.model.walk Model.rootIndex, i < l.model.size)
    (hk : kind ≠ .model) : l.model.Linearizable kind where
  walk := hw
  kin i d hd hkind ho := by
    have ⟨hi, _⟩ := l.placed_of_isKin hk (Model.isKin_iff.mpr ⟨d, hd, hkind, ho⟩)
    have ⟨hf, hp⟩ := l.fresh_of_le hi hd
    refine ⟨hf.isBuiltIn, hf.isFinalized, ?_⟩
    intro p hp'
    exact (l.parentLink_eq_declared (Option.some.inj (hp.symm.trans hp'))).2.1

-- Linearizing one kind does not get in the way of linearizing another.
theorem linearizable_cut {other : DescriptionKind} (hk : other ≠ .model)
    (hl : l.model.Linearizable other) : (l.model.cut kind cuts).Linearizable other := by
  apply hl.of_changed (Model.changed_cut ..)
  intro i d hd hki
  have ⟨hi, _⟩ := l.placed_of_isKin hk (Model.isKin_cut ▸ hki)
  have ⟨e, he, hde⟩ := Option.map_eq_some_iff.mp (Model.get?_cut ▸ hd)
  have hopen := (l.fresh_of_le hi he).1.isFinalized
  subst hde
  split <;> exact hopen

-- The own descriptions are the root and those that were placed.
theorem root_or_placed {d : Description} (hc : Model.Changed Model.SameKin l.model n)
    (hd : n.get? i = some d) (ho : d.isOwn = true) :
    i = Model.rootIndex ∨ l.base ≤ i ∧ i < l.model.size := by
  cases Nat.eq_zero_or_pos i
  case inl h0 => exact .inl h0
  case inr h0 =>
    have ⟨e, he, hsame, _⟩ := hc.get?_rev hd
    have ho' := Description.isOwn_of_bare hsame
    exact .inr ⟨(l.isOwn_iff h0 he).mp (ho'.symm.trans ho), Model.lt_size_of_get? he⟩

theorem mem_walk_of_cycle (hk : kind ≠ .model)
    (hc : TransGen (Leads (l.model.kinParent kind)) i i) : i ∈ l.model.walk Model.rootIndex := by
  have ⟨p, hp, _⟩ := TransGen.head'_iff.mp hc
  have ⟨hi, hlt⟩ := l.placed_of_isKin hk (Model.isKin_of_kinParent hp)
  exact l.mem_walk hi hlt

-- Each cycle loses one link.
theorem exists_cut (hk : kind ≠ .model) (hl : l.model.Linearized kind cuts order)
    (hc : TransGen (Leads (l.model.kinParent kind)) i i) :
    ∃ j, (TransGen (Leads (l.model.kinParent kind)) i j ∧ j ∈ cuts) ∧
      ∀ k, TransGen (Leads (l.model.kinParent kind)) i k ∧ k ∈ cuts → k = j := by
  have hw (j) (hj : TransGen (Leads (l.model.kinParent kind)) i j) :
      j ∈ l.model.walk Model.rootIndex :=
    l.mem_walk_of_cycle hk (Leads.cycle_of_mem hc hj)
  have ⟨j, ⟨hij, hlast⟩, hu⟩ := exists_unique_last hc hw
  exact ⟨j, ⟨hij, (hl.cut j).mpr hlast⟩, fun k ⟨hik, hkc⟩ => hu k ⟨hik, (hl.cut k).mp hkc⟩⟩

-- From a placed description a link leads to a placed one, and from an experiment to an experiment.
theorem extends_of_placed (hi : l.base ≤ i) (h : l.model.Extends i j) :
    l.base ≤ j ∧ j < l.model.size ∧
      (l.model.isKin .experiment i = true → l.model.isKin .experiment j = true) := by
  have ⟨d, hd, hp⟩ := h
  have hlink := (l.fresh_of_le hi hd).2
  have ⟨hj, hlt, hx⟩ := l.parentLink_eq_declared (Option.some.inj (hlink.symm.trans hp))
  refine ⟨hj, hlt, ?_⟩
  intro hk
  have ⟨d', hd', hkind, _⟩ := Model.isKin_iff.mp hk
  cases hd.symm.trans hd'
  have ⟨e, he, hke⟩ := hx hkind
  exact Model.isKin_iff.mpr ⟨e, he, hke, (l.fresh_of_le hj he).1.isOwn⟩

-- The parent of a description of a kind, if declared, is one of the model's own, too.
theorem isKin_of_kinParent_eq (h : l.model.kinParent kind i = some j) :
    l.model.isKin kind j = true := by
  have ⟨d, e, hd, _, ho, hp, he, hke⟩ := Model.kinParent_eq_some_iff.mp h
  have h0 : i ≠ Model.rootIndex := by
    intro h0
    have hroot := Model.root_eq_iff.mpr (h0 ▸ hd)
    rw [l.root_model] at hroot
    cases hroot
    cases hp
  have hi := (l.isOwn_iff (Nat.pos_of_ne_zero h0) hd).mp ho
  have ⟨hj, _, _⟩ := l.extends_of_placed hi ⟨d, hd, hp⟩
  exact Model.isKin_iff.mpr ⟨e, he, hke, (l.fresh_of_le hj he).1.isOwn⟩

-- Own descriptions are declared and open, and their parents lie within the model.
theorem declared_of_isOwn {d : Description} (hd : l.model.get? i = some d) (ho : d.isOwn = true) :
    d.isBuiltIn = false ∧ d.isFinalized = false ∧
      ∀ p, d.parent = some (.declared p) → p < l.model.size := by
  have hc : Model.Changed Model.SameKin l.model l.model := .refl (fun _ => ⟨rfl, .inl rfl⟩) _
  cases l.root_or_placed hc hd ho
  case inl h0 =>
    have hroot := Model.root_eq_iff.mpr (h0 ▸ hd)
    rw [l.root_model] at hroot
    cases hroot
    exact ⟨rfl, rfl, fun _ hp => by cases hp⟩
  case inr h =>
    have hf := (l.fresh_of_le h.1 hd).1
    exact ⟨hf.isBuiltIn, hf.isFinalized, fun p hp => (l.extends_of_placed h.1 ⟨d, hd, hp⟩).2.1⟩

-- A walk comes by all own descriptions.
theorem mem_walk_of_isKin (hi : l.model.isKin kind i = true) :
    i ∈ l.model.walk Model.rootIndex := by
  have ⟨d, hd, _, ho⟩ := Model.isKin_iff.mp hi
  have hc : Model.Changed Model.SameKin l.model l.model := .refl (fun _ => ⟨rfl, .inl rfl⟩) _
  cases l.root_or_placed hc hd ho
  case inl h0 =>
    have hself : i ∈ l.model.walkTo 1 Model.rootIndex := by simp [Model.walkTo, h0]
    exact Model.walkTo_mono hself l.model.size_pos
  case inr h => exact l.mem_walk h.1 h.2

-- Linearization takes in all own descriptions of the kind, and no others.
theorem mem_order_iff (hc : Model.Changed Model.SameKin l.model n)
    (hl : n.Linearized kind cuts order) : i ∈ order ↔ l.model.isKin kind i = true := by
  rw [hl.mem, Model.isKin_of_changed hc, Model.walk_of_changed hc]
  constructor
  case mpr => exact fun hi => .inl ⟨l.mem_walk_of_isKin hi, hi⟩
  case mp =>
    intro h
    cases h
    case inl h => exact h.2
    case inr h =>
      have ⟨_, _, hp⟩ := h
      exact l.isKin_of_kinParent_eq (Model.kinParent_of_changed hc hp)

-- The links of `n` are links of the linked model, but for those that were cut.
def LinksLeft (species experiments : List Nat) (n : Model) : Prop :=
  ∀ i j, n.Extends i j → l.model.Extends i j ∧ i ∉ species ∧ i ∉ experiments

variable {species experiments : List Nat}

-- A link that leads out of a graft leads behind it. So if nothing on a cycle comes behind `i`, the
-- cycle is one of the graft that `i` is in.
theorem not_cycle_of_grafted (hg : ∀ g ∈ r.grafts.entries, g.2.Acyclic)
    (hn : l.LinksLeft species experiments n) (h0 : 0 < i) (hi : i < l.base)
    (hlast : ∀ j, TransGen n.Extends i j → TransGen n.Extends j i → j ≤ i) :
    ¬ TransGen n.Extends i i := by
  intro hcycle
  have ⟨g, hg', offset, k, _, _, hik, hk, hblock⟩ := l.exists_block h0 hi
  have hstep (c t : Nat) (hc : c < g.2.size) (h : n.Extends (offset + c) t) :
      ∃ c', t = offset + c' ∧ g.2.Extends c c' :=
    (Model.extends_iff_of_shift (hblock c hc)).mp (hn (offset + c) t h).1
  have hpath (t : Nat) (h : TransGen n.Extends i t) (hback : ReflTransGen n.Extends t i) :
      ∃ c, t = offset + c ∧ TransGen g.2.Extends k c := by
    induction h
    case single t h =>
      have ⟨c, ht, hx⟩ := hstep k t hk (hik ▸ h)
      exact ⟨c, ht, .single hx⟩
    case tail s t hs hst ih =>
      have ⟨c, hc, hx⟩ := ih (.head hst hback)
      have hle : s ≤ i := hlast s hs (.head' hst hback)
      have ⟨c', ht, hx'⟩ := hstep c t (by omega) (hc ▸ hst)
      exact ⟨c', ht, .tail hx hx'⟩
  have ⟨c, hc, hx⟩ := hpath i hcycle .refl
  have he : k = c := by omega
  exact hg g hg' k (he.symm ▸ hx)

-- Grafts keep their links.
theorem extends_graft {before after : List (String × Model)} {g : String × Model}
    (he : r.grafts.entries = before ++ g :: after) (h : g.2.Extends i j) :
    1 + Model.sizes before + i < l.base ∧
      l.model.Extends (1 + Model.sizes before + i) (1 + Model.sizes before + j) := by
  have ⟨d, hd, _⟩ := h
  have hlt := Model.lt_size_of_get? hd
  have hb := l.base_eq_sizes
  have hsum : Model.sizes r.grafts.entries =
      Model.sizes before + (g.2.size + Model.sizes after) := he ▸ Model.sizes_append_cons
  exact ⟨by omega, (Model.extends_iff_of_shift (l.get?_block he hlt)).mpr ⟨j, rfl, h⟩⟩

-- So they keep their cycles.
theorem acyclic_of_grafted (hn : ∀ i j, i < l.base → l.model.Extends i j → n.Extends i j)
    (ha : n.Acyclic) : ∀ g ∈ r.grafts.entries, g.2.Acyclic := by
  intro g hg k hk
  have ⟨before, after, he⟩ := List.append_of_mem hg
  refine ha _ (hk.lift (1 + Model.sizes before + ·) fun x y h => ?_)
  have ⟨hx, hxy⟩ := l.extends_graft he h
  exact hn _ _ hx hxy

-- Some kind is that of a whole cycle of placed descriptions.
theorem exists_kind_of_cycle (hn : l.LinksLeft species experiments n) (hi : l.base ≤ i)
    (hlt : i < l.model.size) :
    ∃ kind, kind ≠ .model ∧ ∀ j, ReflTransGen n.Extends i j → ReflTransGen n.Extends j i →
      l.model.isKin kind j = true := by
  have hplaced {i j : Nat} (hi : l.base ≤ i ∧ i < l.model.size) (h : ReflTransGen n.Extends i j) :
      l.base ≤ j ∧ j < l.model.size := by
    induction h
    case refl => exact hi
    case tail x y _ hxy ih =>
      have ⟨hy, hylt, _⟩ := l.extends_of_placed ih.1 (hn x y hxy).1
      exact ⟨hy, hylt⟩
  have hexp {i j : Nat} (hi : l.model.isKin .experiment i = true)
      (h : ReflTransGen n.Extends i j) : l.model.isKin .experiment j = true := by
    induction h
    case refl => exact hi
    case tail x y _ hxy ih =>
      have ⟨hx, _⟩ := l.placed_of_isKin (by decide) ih
      exact (l.extends_of_placed hx (hn x y hxy).1).2.2 ih
  cases l.isKin_of_placed hi hlt
  case inr hk => exact ⟨.experiment, by decide, fun j hj _ => hexp hk hj⟩
  case inl hk =>
    refine ⟨.species, by decide, ?_⟩
    intro j hij hji
    have ⟨hj, hjlt⟩ := hplaced ⟨hi, hlt⟩ hij
    cases l.isKin_of_placed hj hjlt
    case inl hkj => exact hkj
    case inr hkj =>
      have he := Model.isKin_unique hk (hexp hkj hji)
      cases he

-- No cycle of placed descriptions is left.
theorem not_cycle_of_placed (hs : ∃ order, l.model.Linearized .species species order)
    (hx : ∃ order, l.model.Linearized .experiment experiments order)
    (hn : l.LinksLeft species experiments n) (hi : l.base ≤ i) : ¬ TransGen n.Extends i i := by
  intro hc
  obtain ⟨j, hij, _⟩ := TransGen.head'_iff.mp hc
  obtain ⟨d, hd, _⟩ := (hn i j hij).1
  obtain ⟨kind, hk, hkin⟩ := l.exists_kind_of_cycle hn hi (Model.lt_size_of_get? hd)
  obtain ⟨cuts, ⟨order, hlin⟩, hcut⟩ : ∃ cuts, (∃ order, l.model.Linearized kind cuts order) ∧
      ∀ x y, n.Extends x y → x ∉ cuts := by
    cases kind
    case model => exact absurd rfl hk
    case species => exact ⟨species, hs, fun x y hxy => (hn x y hxy).2.1⟩
    case experiment => exact ⟨experiments, hx, fun x y hxy => (hn x y hxy).2.2⟩
  let left := fun i => if i ∈ cuts then none else l.model.kinParent kind i
  -- The cycle consists of links that linearization has left.
  have hstep (x y) (hxi : ReflTransGen n.Extends i x) (hyi : ReflTransGen n.Extends y i)
      (hxy : n.Extends x y) : Leads left x y := by
    obtain ⟨dx, hdx, hkx, hox⟩ := Model.isKin_iff.mp (hkin x hxi (.head hxy hyi))
    obtain ⟨dy, hdy, hky, _⟩ := Model.isKin_iff.mp (hkin y (.tail hxi hxy) hyi)
    obtain ⟨dx', hdx', hpx⟩ := (hn x y hxy).1
    cases hdx.symm.trans hdx'
    have hf := Model.kinParent_eq_some_iff.mpr ⟨dx, dy, hdx, hkx, hox, hpx, hdy, hky⟩
    simp [Leads, left, hcut x y hxy, hf]
  have hpath (y) (hy : TransGen n.Extends i y) (hyi : ReflTransGen n.Extends y i) :
      TransGen (Leads left) i y := by
    induction hy
    case single y h => exact .single (hstep i y .refl hyi h)
    case tail x y hx' hxy ih =>
      exact .tail (ih (.head hxy hyi)) (hstep x y hx'.to_reflTransGen hyi hxy)
  refine acyclic_of_cut ?_ i (hpath i hc .refl)
  intro k hk'
  obtain ⟨c, hc, _⟩ := l.exists_cut hk hlin hk'
  exact ⟨c, hc⟩

theorem not_cycle_of_root (hn : l.LinksLeft species experiments n) :
    ¬ TransGen n.Extends Model.rootIndex Model.rootIndex := by
  intro hc
  have ⟨j, hij, _⟩ := TransGen.head'_iff.mp hc
  have ⟨d, hd, hp⟩ := (hn Model.rootIndex j hij).1
  rw [Model.get?_rootIndex, l.root_model] at hd
  cases hd
  cases hp

-- Whatever cycle is left is one of a graft.
theorem acyclic_of_links (hg : ∀ g ∈ r.grafts.entries, g.2.Acyclic)
    (hs : ∃ order, l.model.Linearized .species species order)
    (hx : ∃ order, l.model.Linearized .experiment experiments order)
    (hn : l.LinksLeft species experiments n) : n.Acyclic := by
  -- From the last description on, so that there is nothing behind `i` on a cycle.
  intro i
  induction hk : l.model.size - i using Nat.strongRecOn generalizing i
  case ind k ih =>
    have hlast (j : Nat) (hij : TransGen n.Extends i j) (hji : TransGen n.Extends j i) :
        j ≤ i := by
      by_contra hlt
      have ⟨t, hjt, _⟩ := TransGen.head'_iff.mp hji
      have ⟨d, hd, _⟩ := (hn j t hjt).1
      have hj := Model.lt_size_of_get? hd
      exact ih (l.model.size - j) (by omega) j rfl (hji.trans hij)
    cases Nat.lt_or_ge i l.base
    case inr hi => exact l.not_cycle_of_placed hs hx hn hi
    case inl hi =>
      cases Nat.eq_zero_or_pos i
      case inl h0 => exact h0 ▸ l.not_cycle_of_root hn
      case inr h0 => exact l.not_cycle_of_grafted hg hn h0 hi hlast

-- Linearizing both kinds, one after the other, cuts what there is to cut of each.
theorem exists_linearized_both (hc : l.model.Contained) : ∃ species order₁ experiments order₂,
    (l.model.linearize .species).result = .ok (l.model.cut .species species, order₁) ∧
    ((l.model.cut .species species).linearize .experiment).result =
      .ok ((l.model.cut .species species).cut .experiment experiments, order₂) ∧
    l.model.Linearized .species species order₁ ∧
    l.model.Linearized .experiment experiments order₂ := by
  have hlin (kind : DescriptionKind) (hk : kind ≠ .model) : l.model.Linearizable kind :=
    l.linearizable (fun _ hi => hc.lt_of_mem_walk hi) hk
  have ⟨species, order₁, _, he₁, _, hl₁⟩ := Model.linearize_eq (hlin .species (by decide))
  have hcut : (l.model.cut .species species).Linearizable .experiment :=
    l.linearizable_cut (by decide) (hlin .experiment (by decide))
  have ⟨experiments, order₂, _, he₂, _, hl₂⟩ := Model.linearize_eq hcut
  -- The experiments are cut as they would be in the linked model.
  exact ⟨species, order₁, experiments, order₂, by rw [he₁], by rw [he₂], hl₁,
    hl₂.of_cut (by decide) fun i hi => hl₁.isKin hi⟩

-- What is left of the links after that.
theorem linksLeft_cut_cut : l.LinksLeft species experiments
    ((l.model.cut .species species).cut .experiment experiments) :=
  fun _ _ h => Model.extends_cut_cut.mp h

theorem extends_of_grafted {order' : List Nat} (hs : l.model.Linearized .species species order)
    (hx : l.model.Linearized .experiment experiments order') (hi : i < l.base)
    (h : l.model.Extends i j) :
    ((l.model.cut .species species).cut .experiment experiments).Extends i j := by
  refine Model.extends_cut_cut.mpr ⟨h, fun hm => ?_, fun hm => ?_⟩
  · exact absurd (l.placed_of_isKin (by decide) (hs.isKin hm)).1 (Nat.not_le_of_lt hi)
  · exact absurd (l.placed_of_isKin (by decide) (hx.isKin hm)).1 (Nat.not_le_of_lt hi)

-- A link of the root or of a placed description, whether it was cut or not, leads to a placed
-- description or out of the model to a registered one.
theorem exists_parent (hr : a.registry.Built) (species experiments : List Nat)
    (hi : i = Model.rootIndex ∨ l.base ≤ i ∧ i < l.model.size) :
    ∃ d link, ((l.model.cut .species species).cut .experiment experiments).get? i = some d ∧
      d.parent = some link ∧
      (∀ name, link = .builtIn name → (a.registry.lookup name).isSome) ∧
      ∀ j, link = .declared j → l.base ≤ j ∧ j < l.model.size := by
  have hbase (kind : DescriptionKind) : (a.registry.lookup kind.base).isSome := by
    have hagent : (a.registry.lookup Keyword.agent).isSome :=
      Registry.isSome_lookup_of_table (hr.base (show DescriptionKind.species ≠ .model by decide))
    cases kind
    case experiment =>
      exact Registry.isSome_lookup_of_table
        (hr.base (show DescriptionKind.experiment ≠ .model by decide))
    all_goals exact hagent
  have ⟨d, link, hd, hp, hb, hl⟩ : ∃ d link, l.model.get? i = some d ∧ d.parent = some link ∧
      (∀ name, link = .builtIn name → (a.registry.lookup name).isSome) ∧
      ∀ j, link = .declared j → l.base ≤ j ∧ j < l.model.size := by
    cases hi
    case inl h0 =>
      have ⟨name, hp, hs⟩ := l.parent_root hr
      refine ⟨_, _, h0 ▸ Model.get?_rootIndex _, hp, ?_, by simp⟩
      intro name' he
      cases he
      exact Registry.isSome_lookup_of_table hs
    case inr hi =>
      have ⟨d, hd⟩ := Model.get?_of_lt_size hi.2
      refine ⟨d, _, hd, (l.fresh_of_le hi.1 hd).2,
        fun _ he => Registry.isSome_lookup_of_table (l.parentLink_eq_builtIn hr he), ?_⟩
      intro j hj
      have ⟨hle, hlt, _⟩ := l.parentLink_eq_declared hj
      exact ⟨hle, hlt⟩
  have hgeneric (kind : DescriptionKind) (name : String)
      (he : ParentLink.builtIn kind.base = .builtIn name) :
      (a.registry.lookup name).isSome := by
    cases he
    exact hbase kind
  simp only [Model.get?_cut, hd, Option.map_some]
  by_cases hx : i ∈ experiments
  case pos => exact ⟨_, _, rfl, by simp [hx], hgeneric .experiment, by simp⟩
  case neg =>
    by_cases hs : i ∈ species
    case pos => exact ⟨_, _, rfl, by simp [hx, hs], hgeneric .species, by simp⟩
    case neg => exact ⟨_, link, rfl, by simp [hx, hs, hp], hb, hl⟩

end Assembler.Linking

-- Linearizing a linked model cuts one link of each cycle, reports it, and changes nothing else.
-- Grafts are left as they are. So once the species and the experiments are linearized, no own
-- description is on a cycle of parents, and there is none at all exactly if no graft came with one.
-- What a graft contains is all in its range, as for any model that is built (`Built.contained`).
open Assembler in
theorem linearize_breaks_cycles {a : Assembler} {r : Request} (l : Linking a r)
    (hr : a.registry.Built) (hg : ∀ g ∈ r.grafts.entries, g.2.Contained) :
    (∀ kind, kind ≠ .model → ∃ cuts order reports,
      l.model.linearize kind = ⟨.ok (l.model.cut kind cuts, order), reports⟩ ∧
      List.Forall₂ l.model.Reports cuts reports ∧
      cuts.Sublist (l.model.walk Model.rootIndex) ∧ cuts.Nodup ∧
      (∀ i, i ∈ cuts ↔ LastOfCycle (l.model.kinParent kind) (l.model.walk Model.rootIndex) i) ∧
      ∀ i, TransGen (Leads (l.model.kinParent kind)) i i →
        ∃! j, TransGen (Leads (l.model.kinParent kind)) i j ∧ j ∈ cuts) ∧
    ∃ m₁ order₁ m₂ order₂, (l.model.linearize .species).result = .ok (m₁, order₁) ∧
      (m₁.linearize .experiment).result = .ok (m₂, order₂) ∧
      (m₂.Acyclic ↔ ∀ g ∈ r.grafts.entries, g.2.Acyclic) ∧
      ∀ i d, m₂.get? i = some d → d.isOwn = true →
        ¬ TransGen m₂.Extends i i ∧
        ∃ name, m₂.Descends i name ∧ (m₂.registry.lookup name).isSome := by
  have hcontained := l.contained_model hg
  constructor
  case left =>
    intro kind hk
    have hlin := l.linearizable (fun i hi => hcontained.lt_of_mem_walk hi) hk
    have ⟨cuts, order, reports, he, hrep, hl⟩ := Model.linearize_eq hlin
    refine ⟨cuts, order, reports, he, hrep, hl.sublist, hl.nodup, hl.cut, ?_⟩
    intro i hc
    have ⟨j, hj, hu⟩ := l.exists_cut hk hl hc
    exact ⟨j, hj, hu⟩
  case right =>
    have ⟨species, order₁, experiments, order₂, he₁, he₂, hl₁, hl₂⟩ :=
      l.exists_linearized_both hcontained
    let m₂ := (l.model.cut .species species).cut .experiment experiments
    have hleft : l.LinksLeft species experiments m₂ := l.linksLeft_cut_cut
    have hreg : m₂.registry = a.registry := l.registry_model
    let own (i : Nat) := i = Model.rootIndex ∨ l.base ≤ i ∧ i < l.model.size
    have hac (i) (hi : own i) : ¬ TransGen m₂.Extends i i := by
      cases hi
      case inl h0 => exact h0 ▸ l.not_cycle_of_root hleft
      case inr hi => exact l.not_cycle_of_placed ⟨order₁, hl₁⟩ ⟨order₂, hl₂⟩ hleft hi.1
    refine ⟨_, order₁, m₂, order₂, he₁, he₂, ⟨?kept, ?acyclic⟩, ?descends⟩
    case kept => exact l.acyclic_of_grafted fun i j hi => l.extends_of_grafted hl₁ hl₂ hi
    case acyclic =>
      exact fun hga => l.acyclic_of_links hga ⟨order₁, hl₁⟩ ⟨order₂, hl₂⟩ hleft
    case descends =>
      intro i d hd ho
      have hc : Model.Changed Model.SameKin l.model m₂ :=
        (Model.changed_cut ..).trans (fun _ _ _ => Model.SameKin.trans) (Model.changed_cut ..)
      have hi : own i := l.root_or_placed hc hd ho
      refine ⟨hac i hi, Model.exists_descends hac (fun i hi => ?_) hi⟩
      have ⟨d, link, hd, hp, hb, hl⟩ := l.exists_parent hr species experiments hi
      exact ⟨d, link, hd, hp, hreg ▸ hb, fun j hj => .inr (hl j hj)⟩

-- Two species that extend each other, and one that extends itself.
def mutualRequest : Request where
  primary := "main"
  trees := [{
    kind := .model
    name := some "main"
    children := [
      { kind := .species, name := some "wolf", facets := .ofList [("parent", "dog")] },
      { kind := .species, name := some "dog", facets := .ofList [("parent", "wolf")] },
      { kind := .species, name := some "fox", facets := .ofList [("parent", "fox")] }] }]

open Assembler in
theorem linearize_breaks_mutual_parents : ∃ (l : Linking {} mutualRequest) (cuts order : List Nat)
    (reports : List Diagnostic),
    l.model.linearize .species = ⟨.ok (l.model.cut .species cuts, order), reports⟩ ∧ 3 ∈ cuts ∧
    ∃ m₁ order₁ m₂ order₂, (l.model.linearize .species).result = .ok (m₁, order₁) ∧
      (m₁.linearize .experiment).result = .ok (m₂, order₂) ∧ m₂.Acyclic := by
  have hg (P : Model → Prop) : ∀ g ∈ mutualRequest.grafts.entries, P g.2 :=
    fun _ hm => absurd hm List.not_mem_nil
  obtain ⟨l⟩ := nonempty_linking {} (r := mutualRequest) rfl (hg (·.root.isFinalized = true))
  have hb : l.base = 1 := l.base_eq
  have hindex : l.placement.indices.get? "fox" = some 3 := by
    rw [l.indices_placement, hb]
    rfl
  -- The fox extends itself.
  obtain ⟨d, hd, hk, ho, hp⟩ : ∃ d, l.model.get? 3 = some d ∧ d.kind = .species ∧ d.isOwn = true ∧
      d.parent = some (.declared 3) := by
    have hle : l.base ≤ 3 := by omega
    rw [l.get?_of_le hle, hb]
    refine ⟨_, rfl, rfl, rfl, ?_⟩
    have hlink (d : Description) (hk : d.isExperiment = false)
        (hf : d.facets.get? Keyword.parent = some "fox") :
        l.placement.parentLink d = .declared 3 := by
      simp [Placement.parentLink, Placement.speciesParent, hk, hf, hindex]
    exact congrArg some (hlink _ rfl rfl)
  have hself : Leads (l.model.kinParent .species) 3 3 :=
    Model.kinParent_eq_some_iff.mpr ⟨d, d, hd, hk, ho, hp, hd, hk⟩
  obtain ⟨hexact, m₁, order₁, m₂, order₂, h₁, h₂, hac, _⟩ :=
    linearize_breaks_cycles l .defaults (hg Model.Contained)
  obtain ⟨cuts, order, reports, he, _, _, _, _, hone⟩ := hexact .species (by decide)
  obtain ⟨j, ⟨hj, hm⟩, _⟩ := hone 3 (.single hself)
  have h3 : j = 3 := hself.eq_of_self hj
  exact ⟨l, cuts, order, reports, he, h3 ▸ hm, m₁, order₁, m₂, order₂, h₁, h₂,
    hac.mpr (hg Model.Acyclic)⟩

-- A hare and a rabbit that extend each other, finalized as they are.
def warren : Except ModelError Model := do
  let m ← Model.ofRoot (.new .model .model "warren" ∅) .defaults
  let m ← m.add Model.rootIndex (.new .species .species "hare" ∅)
  let m ← m.add Model.rootIndex (.new .species .species "rabbit" ∅)
  let m ← m.modify 1 (·.setParent (.declared 2))
  let m ← m.modify 2 (·.setParent (.declared 1))
  [1, 2, Model.rootIndex].foldlM (fun m i => m.modify i fun d => .ok d.close) m

def meadowRequest (warren : Model) : Request where
  primary := "meadow"
  trees := [{ kind := .model, name := some "meadow" }]
  grafts := .ofList [("hole", warren)]

-- The warren is sound, but for its cycle.
theorem exists_warren : ∃ g, warren = .ok g ∧ g.InRange ∧
    (∀ i d, g.get? i = some d → d.isFinalized = true) ∧ g.Extends 1 2 ∧ g.Extends 2 1 := by
  have ⟨g, hg⟩ : ∃ g, warren = .ok g := ⟨_, rfl⟩
  have hsize : g.size = 3 := by
    cases hg
    rfl
  have hall : ∀ d ∈ g.descriptions, d.isFinalized = true ∧ (∀ j ∈ d.micro, j < 3) ∧
      d.parent ∈ [none, some (.declared 1), some (.declared 2)] := by
    cases hg
    decide +kernel
  have hget {i : Nat} {d : Description} (hd : g.get? i = some d) := hall d (List.mem_of_getElem? hd)
  have hextends : g.Extends 1 2 ∧ g.Extends 2 1 := by
    cases hg
    exact ⟨⟨_, rfl, rfl⟩, ⟨_, rfl, rfl⟩⟩
  refine ⟨g, hg, ?inRange, fun i d hd => (hget hd).1, hextends⟩
  case inRange =>
    refine Model.Contained.inRange (fun i d hd j hj => hsize ▸ (hget hd).2.1 j hj) ?_
    intro i j ⟨d, hd, hp⟩
    have hlink := hp ▸ (hget hd).2.2
    have hj : j = 1 ∨ j = 2 := by simpa using hlink
    omega

-- In a meadow with their warren, the hare and the rabbit still extend each other after both
-- linearizations.
open Assembler in
theorem cycle_left_in_warren : ∃ g, ∃ l : Linking {} (meadowRequest g), ∃ m₁ order₁ m₂ order₂,
    warren = .ok g ∧ g.InRange ∧ (∀ i d, g.get? i = some d → d.isFinalized = true) ∧
    (l.model.linearize .species).result = .ok (m₁, order₁) ∧
    (m₁.linearize .experiment).result = .ok (m₂, order₂) ∧
    m₂.Extends 2 3 ∧ m₂.Extends 3 2 ∧ ¬ m₂.Acyclic := by
  have ⟨g, hg, hin, hfinal, hextends⟩ := exists_warren
  have hmem (x) (hx : x ∈ (meadowRequest g).grafts.entries) : x = ("hole", g) :=
    List.mem_singleton.mp hx
  have ⟨l⟩ := nonempty_linking {} (r := meadowRequest g) rfl fun x hx =>
    hmem x hx ▸ hfinal _ _ (Model.get?_rootIndex g)
  have hcontained := l.contained_model fun x hx => hmem x hx ▸ hin.contained
  have ⟨species, order₁, experiments, order₂, he₁, he₂, hl₁, hl₂⟩ :=
    l.exists_linearized_both hcontained
  have hsplit : (meadowRequest g).grafts.entries = [] ++ ("hole", g) :: [] := rfl
  have hleft {i j : Nat} (h : g.Extends i j) :
      ((l.model.cut .species species).cut .experiment experiments).Extends (1 + i) (1 + j) := by
    have ⟨hlt, hij⟩ := l.extends_graft hsplit h
    exact l.extends_of_grafted hl₁ hl₂ hlt hij
  have h₂₃ := hleft hextends.1
  have h₃₂ := hleft hextends.2
  exact ⟨g, l, _, order₁, _, order₂, hg, hin, hfinal, he₁, he₂, h₂₃, h₃₂,
    fun ha => ha 2 (.head h₂₃ (.single h₃₂))⟩

end ModelAssembly
