import ModelAssembly.Assembly.Assembler
import ModelAssembly.Proofs.Merging
import ModelAssembly.Proofs.Placement
/-!
The later stages of an assembly, one by one: what each may change in a model that it lets pass.

Main statements: `Merges` with `merged_of_foldlM`, for merging members down in an order in which
parents come first; `locked_of_finalizeAll`; `addScheduler_eq_ok` for the scheduler.
-/

namespace ModelAssembly

namespace Description

-- `d'` is `d` but for the lock.
def Locked (d d' : Description) : Prop := { d' with isFinalized := d.isFinalized } = d

-- `d'` is `d` but for the members and the lock.
def Refilled (d d' : Description) : Prop :=
  { d' with members := d.members, isFinalized := d.isFinalized } = d

variable {d d' e : Description}

theorem Locked.refl (d : Description) : Locked d d := rfl

theorem Locked.trans (h : Locked d d') (h' : Locked d' e) : Locked d e := by
  unfold Locked at *
  rw [← h, ← h']

theorem Refilled.refl (d : Description) : Refilled d d := rfl

theorem Refilled.trans (h : Refilled d d') (h' : Refilled d' e) : Refilled d e := by
  unfold Refilled at *
  rw [← h, ← h']

theorem Locked.refilled (h : Locked d d') : Refilled d d' := by
  unfold Locked at h
  unfold Refilled
  rw [← h]

theorem Locked.members (h : Locked d d') : d'.members = d.members := by
  unfold Locked at h
  rw [← h]

theorem Refilled.bare (h : Refilled d d') : d'.bare = d.bare := by
  unfold Refilled at h
  rw [← h]
  rfl

theorem Refilled.parent (h : Refilled d d') : d'.parent = d.parent := by
  unfold Refilled at h
  rw [← h]

end Description

namespace Model

open Description

variable {m m' : Model} {i : Nat} {d d' : Description}

-- `m'` is `m` with the members of the parent of `i` merged into the description at `i`, which may
-- have been locked.
def Merges (m : Model) (i : Nat) (m' : Model) : Prop :=
  ∃ d d', m.get? i = some d ∧ m' = m.set i d' ∧ Locked (d.mergedWith (m.parentOf i)) d'

theorem get?_set {j : Nat} (h : m.get? i = some d) :
    (m.set i d').get? j = if j = i then some d' else m.get? j := by
  have hs := set_eq_alter h fun _ => d'
  rw [hs, get?_alter]
  by_cases hj : j = i
  case pos => simp [hj, h]
  case neg => simp [hj]

theorem set_self (h : m.get? i = some d) : m.set i d = m := by
  have hs := set_eq_alter h id
  refine hs.trans (mapDescriptions_id ?_)
  intro j e _
  simp

theorem merges_of_inherit (h : m.inherit i = .ok m') : m.Merges i m' := by
  obtain ⟨d, hd, h⟩ := bind_eq_ok_iff.mp h
  have hd := get_eq_ok_iff.mp hd
  split at h
  case h_1 hp =>
    refine ⟨d, d, hd, ?_, hp ▸ .refl d⟩
    rw [set_self hd]
    exact (Except.ok.inj h).symm
  case h_2 p hp =>
    obtain ⟨e, e', he, hc, hs⟩ := modify_eq_ok_iff.mp h
    cases hd.symm.trans he
    obtain ⟨_, hc⟩ := edit_eq_ok_iff.mp hc
    exact ⟨d, e', hd, hs.symm, hp ▸ hc ▸ .refl _⟩

-- What finalizing does to the description that it is meant for, and to no other.
theorem set_of_finalize {passed : Bool} (h : (m.finalize i).result = .ok (m', passed)) :
    ∃ d d', m.get? i = some d ∧ m' = m.set i d' ∧ Locked d d' := by
  have ⟨d, hd, h⟩ := Outcome.bind_eq_ok_iff.mp h
  have hd := get_eq_ok_iff.mp (Outcome.ofModel_eq_ok_iff.mp hd)
  split at h
  case isTrue =>
    cases h
    exact ⟨d, d, hd, (set_self hd).symm, .refl d⟩
  case isFalse =>
    have ⟨_, _, h⟩ := Outcome.bind_eq_ok_iff.mp h
    cases h
    exact ⟨d, d.close, hd, rfl, rfl⟩

theorem locked_of_finalize {passed : Bool} (h : (m.finalize i).result = .ok (m', passed)) :
    Changed Locked m m' := by
  have ⟨d, d', hd, hs, hl⟩ := set_of_finalize h
  exact hs ▸ .of_set .refl hd hl

theorem set_set (d₁ d₂ : Description) : (m.set i d₁).set i d₂ = m.set i d₂ := by
  simp [set]

theorem merges_of_concludeExperiment (h : (Assembler.concludeExperiment m i).result = .ok m') :
    m.Merges i m' := by
  have ⟨n, hn, h⟩ := Outcome.bind_eq_ok_iff.mp h
  have ⟨⟨n', passed⟩, hf, h⟩ := Outcome.bind_eq_ok_iff.mp h
  have ⟨d, d₁, hd, hs, hl⟩ := merges_of_inherit (Outcome.ofModel_eq_ok_iff.mp hn)
  have ⟨d₁', d₂, hd₁, hs₂, hl₂⟩ := set_of_finalize hf
  have hm : n' = m' := by
    cases passed
    case true => exact Except.ok.inj h
    case false =>
      have ⟨_, _, h⟩ := Outcome.bind_eq_ok_iff.mp h
      cases h
  rw [hs, get?_set hd, if_pos rfl] at hd₁
  cases hd₁
  refine ⟨d, d₂, hd, ?_, hl.trans hl₂⟩
  rw [← hm, hs₂, hs, set_set]

theorem locked_of_finalizeAll {passed : Bool} (h : m.finalizeAll.result = .ok (m', passed)) :
    Changed Locked m m' := by
  have ⟨n, hn, h⟩ := Outcome.bind_eq_ok_iff.mp h
  rw [Outcome.result_foldlM] at hn
  have hc : Changed Locked m n := by
    apply foldlM_eq_ok_rule (P := fun _ s => Changed Locked m s) hn (.refl .refl m)
    intro _ x _ s s' _ hs he
    have ⟨⟨s'', passed⟩, hf, he⟩ := Outcome.bind_eq_ok_iff.mp he
    cases he
    exact hs.trans (fun _ _ _ => .trans) (locked_of_finalize hf)
  exact hc.trans (fun _ _ _ => .trans) (locked_of_finalize h)

section

variable {ε : Type} {f : Model → Nat → Except ε Model} {order : List Nat}

theorem Merges.changed (h : m.Merges i m') : Changed Refilled m m' := by
  have ⟨d, d', hd, hs, hl⟩ := h
  rw [hs]
  refine .of_set .refl hd (.trans ?_ hl.refilled)
  cases m.parentOf i <;> rfl

-- A change at `i` is not seen by those that have another parent.
theorem parentOf_set {x : Nat} (hx : m.get? x = some d) (hp : d'.parent = d.parent)
    (hi : ∀ e, m.get? i = some e → e.parent ≠ some (.declared x)) :
    (m.set x d').parentOf i = m.parentOf i := by
  have hreg : (m.set x d').registry = m.registry := rfl
  have hres (link : ParentLink) (hl : link ≠ .declared x) :
      (m.set x d').resolve link = m.resolve link := by
    cases link
    case builtIn => rfl
    case declared p =>
      have hpx : p ≠ x := fun he => hl (he ▸ rfl)
      simp [resolve, get?_set hx, hpx]
  have hparent : ((m.set x d').get? i).bind (·.parent) = (m.get? i).bind (·.parent) := by
    rw [get?_set hx]
    by_cases hix : i = x
    case pos => simp [hix, hx, hp]
    case neg => simp [hix]
  unfold parentOf
  rw [← Option.bind_assoc, ← Option.bind_assoc, hparent]
  cases he : m.get? i
  case none => rfl
  case some e =>
    cases hl : e.parent
    case none => simp [hl]
    case some link => simpa [hl] using hres link fun h => hi e he (h ▸ hl)

-- Merging along an order in which parents come before their children: each description ends up
-- merged with what its parent ends up as.
theorem merged_of_foldlM (hf : ∀ m i m', f m i = .ok m' → m.Merges i m')
    (h : order.foldlM f m = .ok m') (hn : order.Nodup)
    (hb : ∀ i d p, i ∈ order → m.get? i = some d → d.parent = some (.declared p) → p ∈ order →
      order.idxOf p < order.idxOf i) :
    Changed Refilled m m' ∧ (∀ i, i ∉ order → m'.get? i = m.get? i) ∧
      ∀ i ∈ order, ∃ d d', m.get? i = some d ∧ m'.get? i = some d' ∧
        Locked (d.mergedWith (m'.parentOf i)) d' := by
  refine foldlM_eq_ok_rule (P := fun pre s => Changed Refilled m s ∧
    (∀ i, i ∉ pre → s.get? i = m.get? i) ∧
      ∀ i ∈ pre, ∃ d d', m.get? i = some d ∧ s.get? i = some d' ∧
        Locked (d.mergedWith (s.parentOf i)) d') h ⟨.refl .refl m, by simp, by simp⟩ ?_
  intro pre x post s s' ho ⟨hc, hout, hin⟩ hs
  have hm := hf s x s' hs
  have ⟨d, d', hd, hset, hl⟩ := hm
  have hpar : d'.parent = d.parent := by
    have hr : Refilled d d' := .trans (by cases s.parentOf x <;> rfl) hl.refilled
    exact hr.parent
  have hxpre : x ∉ pre := by
    rw [ho] at hn
    exact fun hx => (List.nodup_append.mp hn).2.2 x hx x List.mem_cons_self rfl
  -- Nothing that was merged so far has `x` as its parent, nor has `x`.
  have hkeep (i) (hi : i ∈ pre ∨ i = x) : s'.parentOf i = s.parentOf i := by
    rw [hset]
    apply parentOf_set hd hpar
    intro e he hp
    have ⟨e₀, he₀, hr⟩ := hc.get?_rev he
    have hmem : i ∈ order := by
      rw [ho]
      exact hi.elim (List.mem_append_left _) fun h => by simp [h]
    have hlt := hb i e₀ x hmem he₀ (hr.parent ▸ hp) (by simp [ho])
    have hidx : order.idxOf x = pre.length := by simp [ho, List.idxOf_append, hxpre]
    cases hi
    case inl hi =>
      have hle : order.idxOf i < pre.length := by
        rw [ho, List.idxOf_append, if_pos hi]
        exact List.idxOf_lt_length_iff.mpr hi
      omega
    case inr hi => exact absurd (hi ▸ hlt) (Nat.lt_irrefl _)
  refine ⟨hc.trans (fun _ _ _ => .trans) hm.changed, ?_, ?_⟩
  · intro i hi
    have hix : i ≠ x := fun he => hi (by simp [he])
    rw [hset, get?_set hd, if_neg hix]
    exact hout i fun hm => hi (List.mem_append_left _ hm)
  · intro i hi
    cases List.mem_append.mp hi
    case inl hi =>
      have ⟨e, e', he, he', hle⟩ := hin i hi
      have hix : i ≠ x := fun h => hxpre (h ▸ hi)
      refine ⟨e, e', he, ?_, hkeep i (.inl hi) ▸ hle⟩
      rw [hset, get?_set hd, if_neg hix, he']
    case inr hi =>
      have hix := List.mem_singleton.mp hi
      subst hix
      refine ⟨d, d', hout i hxpre ▸ hd, ?_, hkeep i (.inr rfl) ▸ hl⟩
      rw [hset, get?_set hd, if_pos rfl]

end

theorem buildTypes_eq_ok (h : m.buildTypes = .ok m') : ∃ types, m' = { m with types } := by
  have ⟨_, _, h⟩ := bind_eq_ok_iff.mp h
  have ⟨types, _, h⟩ := bind_eq_ok_iff.mp h
  exact ⟨types, (Except.ok.inj h).symm⟩

theorem add_eq_ok {owner : Nat} (h : m.add owner d = .ok m') :
    m' = m.grow owner [m.size] [{ d with owner := some owner }] := by
  cases ho : m.get? owner
  case none => simp [add, ho] at h
  case some o =>
    have hopen : o.isFinalized = false := by
      simp only [add, ho] at h
      obtain ⟨_, he, _⟩ := bind_eq_ok_iff.mp h
      exact (edit_eq_ok_iff.mp he).1
    exact Except.ok.inj (h.symm.trans (add_eq ho hopen d))

-- `m` with other facets at its root.
def withRootFacets (m : Model) (facets : Facets) : Model :=
  m.alter rootIndex fun d => { d with facets }

theorem withRootFacets_self (m : Model) : m.withRootFacets m.root.facets = m := by
  apply mapDescriptions_id
  intro i d hd
  by_cases hi : i = rootIndex
  case pos => simp [hi, root_eq_iff.mpr (hi ▸ hd)]
  case neg => simp [hi]

theorem withRootFacets_withRootFacets (m : Model) (f g : Facets) :
    (m.withRootFacets f).withRootFacets g = m.withRootFacets g := by
  refine mapDescriptions_mapDescriptions.trans (mapDescriptions_congr ?_)
  intro i d _
  by_cases hi : i = rootIndex <;> simp [hi]

-- Moving facets changes the facets of the root and those of the scheduler.
theorem relocate_eq_ok {n n' : Model} {s s' : Description} {facet : String} {f g : Facets}
    (hn : n = m.withRootFacets f) (hs : s = { m.emptyScheduler with facets := g })
    (h : relocate (n, s) facet = .ok (n', s')) :
    (∃ f, n' = m.withRootFacets f) ∧ ∃ g, s' = { m.emptyScheduler with facets := g } := by
  simp only [relocate] at h
  split at h
  case h_1 =>
    cases h
    exact ⟨⟨f, hn⟩, ⟨g, hs⟩⟩
  case h_2 expression _ =>
    obtain ⟨m₁, hm, h⟩ := bind_eq_ok_iff.mp h
    obtain ⟨s₁, hsf, h⟩ := bind_eq_ok_iff.mp h
    cases h
    obtain ⟨d, d', hd, hc, hset⟩ := modify_eq_ok_iff.mp hm
    obtain ⟨_, hc⟩ := edit_eq_ok_iff.mp hc
    obtain ⟨_, he⟩ := edit_eq_ok_iff.mp hsf
    constructor
    case left =>
      have halter : n.set rootIndex d' = n.withRootFacets (d.facets.erase facet) :=
        hc ▸ set_eq_alter hd fun e => { e with facets := d.facets.erase facet }
      exact ⟨_, by rw [← hset, halter, hn, withRootFacets_withRootFacets]⟩
    case right => exact ⟨_, he.symm.trans (by rw [hs])⟩

-- The scheduler is the last description, contained in the root, and has the members of the generic
-- base species.
theorem addScheduler_eq_ok (h : m.addScheduler = .ok m') :
    m.hasSchedule = false ∧ m' = m ∨
      m.hasSchedule = true ∧ ∃ f g agent,
        (∀ p, m.registry.species.get? Keyword.agent = some p → agent = some p) ∧
        m' = (m.withRootFacets f).grow rootIndex [m.size]
          [{ ({ m.emptyScheduler with facets := g }).mergedWith agent with
            owner := some rootIndex }] := by
  unfold addScheduler at h
  cases hh : m.hasSchedule
  case false =>
    simp only [hh] at h
    exact .inl ⟨rfl, (Except.ok.inj h).symm⟩
  case true =>
    simp only [hh, if_true] at h
    obtain ⟨⟨n, s⟩, hr, h⟩ := bind_eq_ok_iff.mp h
    obtain ⟨⟨f, hn⟩, ⟨g, hs⟩⟩ : (∃ f, n = m.withRootFacets f) ∧
        ∃ g, s = { m.emptyScheduler with facets := g } := by
      refine foldlM_eq_ok_rule (P := fun _ x => (∃ f, x.1 = m.withRootFacets f) ∧
        ∃ g, x.2 = { m.emptyScheduler with facets := g }) hr
        ⟨⟨_, (withRootFacets_self m).symm⟩, ⟨∅, rfl⟩⟩ ?_
      rintro _ facet _ x x' _ ⟨⟨f, hx⟩, ⟨g, hx'⟩⟩ he
      exact relocate_eq_ok hx hx' he
    have hreg : n.registry = m.registry := hn ▸ rfl
    have hsize : n.size = m.size := by simp [hn, withRootFacets]
    refine .inr ⟨rfl, f, g, ?_⟩
    simp only [hreg] at h
    split at h
    case h_1 agent ha =>
      obtain ⟨s', hi, h⟩ := bind_eq_ok_iff.mp h
      obtain ⟨_, he⟩ := edit_eq_ok_iff.mp hi
      refine ⟨some agent, fun p hp => by rw [← hp, ha], ?_⟩
      rw [add_eq_ok h, hsize, hn, ← he, hs]
      rfl
    case h_2 ha =>
      refine ⟨none, fun p hp => by simp [ha] at hp, ?_⟩
      rw [add_eq_ok h, hsize, hn, hs]
      rfl

end Model

end ModelAssembly
