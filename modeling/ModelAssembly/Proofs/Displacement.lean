import ModelAssembly.Proofs.Lockstep
import ModelAssembly.Proofs.Relabeling
import ModelAssembly.Proofs.Scheduler
/-!
Displacement: a model as it is when other descriptions have come between its root and the rest. The
stages of an assembly keep the two alike, and report the same of both, as long as what came between
is not the model's own.

Main statements: `Displaced.linearize`, `Displaced.withScheduler` and `lockstep_addOwnMembers`, one
for each stage that reports or adds something.
-/

namespace ModelAssembly

namespace Model

-- Where the description at `i` stands when `k` others have come behind the root.
def displace (k i : Nat) : Nat := if i = rootIndex then rootIndex else i + k

variable {k i j : Nat}

@[simp]
theorem displace_rootIndex : displace k rootIndex = rootIndex := rfl

theorem displace_of_ne (h : i ≠ rootIndex) : displace k i = i + k := if_neg h

theorem displace_ne (h : i ≠ rootIndex) : displace k i ≠ rootIndex := by
  rw [displace_of_ne h]
  exact Nat.ne_of_gt (Nat.add_pos_left (Nat.pos_of_ne_zero h) k)

theorem displace_injective (k : Nat) : (displace k).Injective := by
  intro i j h
  by_cases hi : i = rootIndex
  case pos =>
    by_cases hj : j = rootIndex
    case pos => exact hi.trans hj.symm
    case neg => exact absurd (h.symm.trans (congrArg _ hi)) (displace_ne hj)
  case neg =>
    by_cases hj : j = rootIndex
    case pos => exact absurd (h.trans (congrArg _ hj)) (displace_ne hi)
    case neg =>
      rw [displace_of_ne hi, displace_of_ne hj] at h
      exact Nat.add_right_cancel h

theorem map_displace_range' (start n : Nat) (h : 0 < start) :
    (List.range' start n).map (displace k) = List.range' (start + k) n := by
  induction n generalizing start
  case zero => rfl
  case succ n hi =>
    have hne : start ≠ rootIndex := Nat.ne_of_gt h
    rw [List.range'_succ, List.range'_succ, List.map_cons, hi _ (Nat.succ_pos _),
      displace_of_ne hne, Nat.add_right_comm]

end Model

-- The link to the same description, when `k` others have come behind the root.
def ParentLink.displace (k : Nat) : ParentLink → ParentLink
  | .declared i => .declared (Model.displace k i)
  | .builtIn name => .builtIn name

-- `d` when `k` descriptions have come behind the root. What it contains is left as it is.
def Description.displace (k : Nat) (d : Description) : Description :=
  { d with
    owner := d.owner.map (Model.displace k)
    parent := d.parent.map (·.displace k) }

namespace Model

open Description

-- `m` is `n` with `k` descriptions that are not its own behind the root. What descriptions contain
-- does not matter.
structure Displaced (k : Nat) (n m : Model) : Prop where
  registry : m.registry = n.registry
  size : m.size = n.size + k
  get? : ∀ i d, n.get? i = some d → ∃ micro,
    m.get? (displace k i) = some { d.displace k with micro }
  isOwn : ∀ i d, 0 < i → i ≤ k → m.get? i = some d → d.isOwn = false

namespace Displaced

variable {k i j : Nat} {n m : Model} {d : Description} {kind : DescriptionKind}
  {cuts order grafted : List Nat}

section

variable (h : Displaced k n m)

include h

theorem get?_eq_none (hi : n.get? i = none) : m.get? (displace k i) = none := by
  have hn : n.size ≤ i := List.getElem?_eq_none_iff.mp hi
  have h0 : i ≠ rootIndex := fun h0 => Nat.not_lt.mpr hn (h0 ▸ n.size_pos)
  rw [displace_of_ne h0]
  refine List.getElem?_eq_none_iff.mpr ?_
  exact h.size.trans_le (Nat.add_le_add_right hn k)

-- What can be seen of a description without its links is seen of both.
theorem map_get? {α : Type} {look look' : Description → α}
    (hl : ∀ d micro, look' { d.displace k with micro } = look d) :
    (m.get? (displace k i)).map look' = (n.get? i).map look := by
  cases hd : n.get? i
  case none => rw [h.get?_eq_none hd]; rfl
  case some d =>
    have ⟨micro, he⟩ := h.get? i d hd
    rw [he, Option.map_some, Option.map_some, hl]

theorem root : ∃ micro, m.root = { n.root.displace k with micro } := by
  have ⟨micro, hm⟩ := h.get? _ _ (get?_rootIndex n)
  exact ⟨micro, root_eq_iff.mpr hm⟩

theorem name : m.name = n.name := by
  have ⟨_, hr⟩ := h.root
  rw [Model.name, hr]
  rfl

theorem any_get? {p : Description → Bool} (hp : ∀ d micro, p { d.displace k with micro } = p d) :
    (m.get? (displace k i)).any p = (n.get? i).any p := by
  cases hd : n.get? i
  case none => rw [h.get?_eq_none hd]
  case some d =>
    have ⟨micro, he⟩ := h.get? i d hd
    rw [he, Option.any_some, Option.any_some, hp]

theorem isKin : m.isKin kind (displace k i) = n.isKin kind i := h.any_get? fun _ _ => rfl

theorem isKin_of_le (h0 : 0 < i) (hi : i ≤ k) : m.isKin kind i = false := by
  cases hd : m.get? i
  case none => simp [Model.isKin, hd]
  case some d => simp [Model.isKin, hd, h.isOwn i d h0 hi hd]

theorem kinParent : m.kinParent kind (displace k i) = (n.kinParent kind i).map (displace k) := by
  cases hd : n.get? i
  case none => simp [Model.kinParent, hd, h.get?_eq_none hd]
  case some d =>
    obtain ⟨micro, he⟩ := h.get? i d hd
    let e : Description := { d.displace k with micro }
    have hsame : (e.kind = kind && e.isOwn) = (d.kind = kind && d.isOwn) := rfl
    have hparent : e.declaredParent = d.declaredParent.map (displace k) := by
      cases hp : d.parent
      case none => simp [e, declaredParent, Description.displace, hp]
      case some link =>
        cases link <;> simp [e, declaredParent, Description.displace, ParentLink.displace, hp]
    have hkind (p : Nat) : (m.get? (displace k p)).any (fun e => e.kind = kind) =
        (n.get? p).any fun e => e.kind = kind := h.any_get? fun _ _ => rfl
    rw [Model.kinParent, Model.kinParent, hd, he, Option.filter_some, Option.filter_some, hsame]
    split
    case isFalse => rfl
    case isTrue =>
      rw [Option.bind_some, Option.bind_some, hparent]
      cases d.declaredParent
      case none => rfl
      case some p =>
        rw [Option.map_some, Option.filter_some, Option.filter_some, hkind]
        split <;> rfl

theorem map_parentOf {α : Type} {look : Description → α}
    (hl : ∀ d micro, look { d.displace k with micro } = look d) :
    (m.parentOf (displace k i)).map look = (n.parentOf i).map look := by
  cases hd : n.get? i
  case none => simp [parentOf, hd, h.get?_eq_none hd]
  case some d =>
    obtain ⟨micro, he⟩ := h.get? i d hd
    cases hp : d.parent
    case none => simp [parentOf, hd, he, Description.displace, hp]
    case some link =>
      cases link
      case builtIn name =>
        simp [parentOf, hd, he, Description.displace, hp, ParentLink.displace, resolve, h.registry]
      case declared p =>
        simp only [parentOf, hd, he, Description.displace, hp, ParentLink.displace, resolve,
          Option.bind_some, Option.map_some]
        exact h.map_get? hl

-- Changes to all descriptions that agree on those of the model.
theorem mapDescriptions {f g : Nat → Description → Description}
    (hf : ∀ i d micro, n.get? i = some d → ∃ micro',
      g (displace k i) { d.displace k with micro } =
        { (f i d).displace k with micro := micro' })
    (hg : ∀ i d, 0 < i → i ≤ k → (g i d).isOwn = d.isOwn) :
    Displaced k (n.mapDescriptions f) (m.mapDescriptions g) where
  registry := h.registry
  size := by rw [size_mapDescriptions, size_mapDescriptions, h.size]
  get? i d hd := by
    rw [get?_mapDescriptions] at hd
    have ⟨d₀, hd₀, he⟩ := Option.map_eq_some_iff.mp hd
    have ⟨micro, hm⟩ := h.get? i d₀ hd₀
    have ⟨micro', hg⟩ := hf i d₀ micro hd₀
    exact ⟨micro', by rw [get?_mapDescriptions, hm, Option.map_some, hg, he]⟩
  isOwn i d h0 hi hd := by
    rw [get?_mapDescriptions] at hd
    have ⟨d₀, hd₀, he⟩ := Option.map_eq_some_iff.mp hd
    rw [← he, hg i d₀ h0 hi]
    exact h.isOwn i d₀ h0 hi hd₀

theorem alter {f g : Description → Description}
    (hf : ∀ d micro, n.get? i = some d → ∃ micro',
      g { d.displace k with micro } = { (f d).displace k with micro := micro' }) :
    Displaced k (n.alter i f) (m.alter (displace k i) g) := by
  refine h.mapDescriptions (fun j d micro hd => ?own) fun j d h0 hj => ?between
  case own =>
    by_cases hji : j = i
    case pos =>
      subst hji
      simpa using hf d micro hd
    case neg =>
      have hne : displace k j ≠ displace k i := fun he => hji (displace_injective k he)
      exact ⟨micro, by rw [if_neg hne, if_neg hji]⟩
  case between =>
    have hne : j ≠ displace k i := by
      unfold displace
      split
      case isTrue => exact Nat.ne_of_gt h0
      case isFalse hi =>
        exact Nat.ne_of_lt (Nat.lt_of_le_of_lt hj (by simp only [rootIndex] at hi; omega))
    rw [if_neg hne]

theorem cut : Displaced k (n.cut kind cuts) (m.cut kind (cuts.map (displace k))) := by
  refine h.mapDescriptions (fun i d micro _ => ⟨micro, ?_⟩) fun i d _ _ => ?_
  · have hmem : displace k i ∈ cuts.map (displace k) ↔ i ∈ cuts :=
      List.mem_map_of_injective (displace_injective k)
    by_cases hi : i ∈ cuts
    case pos => rw [if_pos hi, if_pos (hmem.mpr hi)]; rfl
    case neg => rw [if_neg hi, if_neg (mt hmem.mp hi)]
  · split <;> rfl

theorem mergedWith_parentOf (d : Description) (micro : List Nat) :
    ({ d.displace k with micro } : Description).mergedWith (m.parentOf (displace k i)) =
      { (d.mergedWith (n.parentOf i)).displace k with micro } := by
  have hmembers (e : Description) (p : Option Description) :
      e.mergedWith p = { e with members := (e.mergedWith p).members } := by cases p <;> rfl
  have hsame : (({ d.displace k with micro } : Description).mergedWith
      (m.parentOf (displace k i))).members = (d.mergedWith (n.parentOf i)).members :=
    members_mergedWith_congr rfl (h.map_parentOf fun _ _ => rfl)
  rw [hmembers, hsame, hmembers d]
  rfl

theorem mergeAt : Displaced k (n.mergeAt i) (m.mergeAt (displace k i)) :=
  h.alter fun d micro _ => ⟨micro, h.mergedWith_parentOf d micro⟩

theorem settleAt : Displaced k (n.settleAt i) (m.settleAt (displace k i)) :=
  h.alter fun d micro _ => ⟨micro, by rw [h.mergedWith_parentOf d micro]; rfl⟩

theorem scheduler_eq : m.scheduler = n.scheduler := by
  have ⟨_, hr⟩ := h.root
  have hfacets : m.root.facets = n.root.facets := by rw [hr]; rfl
  have hprovenance : m.root.provenance = n.root.provenance := by rw [hr]; rfl
  rw [scheduler, scheduler, emptyScheduler, emptyScheduler, h.name, hfacets, hprovenance,
    h.registry]

theorem hasSchedule_eq : m.hasSchedule = n.hasSchedule := by
  have ⟨_, hr⟩ := h.root
  have hfacets : m.root.facets = n.root.facets := by rw [hr]; rfl
  rw [hasSchedule, hasSchedule, hfacets]

theorem withScheduler : Displaced k n.withScheduler m.withScheduler where
  registry := h.registry
  size := by rw [size_withScheduler, size_withScheduler, h.size, Nat.add_right_comm]
  get? i d hd := by
    have hlt := lt_size_of_get? hd
    rw [size_withScheduler] at hlt
    by_cases h0 : i = rootIndex
    case pos =>
      have ⟨_, hr⟩ := h.root
      rw [h0, get?_rootIndex, root_withScheduler] at hd
      cases hd
      rw [h0, displace_rootIndex, get?_rootIndex, root_withScheduler, hr]
      exact ⟨_, rfl⟩
    case neg =>
      have hne := displace_ne (k := k) h0
      cases Nat.lt_or_eq_of_le (Nat.le_of_lt_succ hlt)
      case inl hi =>
        rw [get?_withScheduler h0 hi] at hd
        have ⟨micro, he⟩ := h.get? i d hd
        exact ⟨micro, (get?_withScheduler hne (lt_size_of_get? he)).trans he⟩
      case inr hi =>
        have ⟨members, hs⟩ := Model.scheduler_eq (m := n)
        rw [hi, get?_scheduler] at hd
        cases hd
        have hsize : displace k i = m.size := by rw [displace_of_ne h0, hi, h.size]
        refine ⟨[], ?_⟩
        rw [hsize, get?_scheduler, h.scheduler_eq, hs]
        rfl
  isOwn i d h0 hi hd := by
    have hlt : i < m.size := by
      have hpos := n.size_pos
      have hsize := h.size
      omega
    exact h.isOwn i d h0 hi (get?_withScheduler (Nat.ne_of_gt h0) hlt ▸ hd)

theorem of_types (types types' : TypeTable) :
    Displaced k { n with types } { m with types := types' } :=
  ⟨h.registry, h.size, h.get?, h.isOwn⟩

-- What is reported of a description says nothing about where it stands.
theorem judge_eq (hi : i < n.size) : m.judge (displace k i) = n.judge i := by
  have ⟨d, hd⟩ := get?_of_lt_size hi
  have ⟨_, he⟩ := h.get? i d hd
  rw [judge_of_get? hd, judge_of_get? he]
  rfl

theorem problemsAt_eq : m.problemsAt (displace k i) = n.problemsAt i := by
  cases hd : n.get? i
  case none => rw [problemsAt, problemsAt, hd, h.get?_eq_none hd]; rfl
  case some d =>
    obtain ⟨micro, he⟩ := h.get? i d hd
    have hsame (p : Option Description) :
        ({ d.displace k with micro } : Description).problems p = d.problems p := rfl
    rw [problemsAt_of_get? hd, problemsAt_of_get? he, hsame]
    exact problems_congr (h.map_parentOf fun _ _ => rfl)

theorem close : Displaced k (n.mapDescriptions fun _ d => d.close)
    (m.mapDescriptions fun _ d => d.close) :=
  h.mapDescriptions (fun _ _ micro _ => ⟨micro, rfl⟩) fun _ _ _ _ => rfl

end

section

variable {w : Nat} (h : Displaced k n m) (hn : n.walk rootIndex = rootIndex :: List.range' 1 w)
  (hm : m.walk rootIndex = rootIndex :: (grafted ++ List.range' (1 + k) w))
  (hg : ∀ i ∈ grafted, 0 < i ∧ i ≤ k) (hroot : n.isKin kind rootIndex = false)

include h hn hm hg hroot

-- Cycles are broken in the same places.
theorem broken_eq : m.broken kind =
    ((n.broken kind).1.map (displace k), (n.broken kind).2.map (displace k)) := by
  have hskip : (rootIndex :: grafted).foldl (breakStep (m.isKin kind) (m.kinParent kind))
      ({}, []) = ({}, []) := by
    refine foldl_breakStep_of_not_kin fun i hi => ?_
    cases List.mem_cons.mp hi
    case inl h0 => rw [h0, ← displace_rootIndex (k := k), h.isKin, hroot]
    case inr hi => exact h.isKin_of_le (hg i hi).1 (hg i hi).2
  have hskip₀ : [rootIndex].foldl (breakStep (n.isKin kind) (n.kinParent kind)) ({}, []) =
      ({}, []) := by
    refine foldl_breakStep_of_not_kin fun i hi => ?_
    rw [List.mem_singleton.mp hi, hroot]
  have hrange : (List.range' 1 w).map (displace k) = List.range' (1 + k) w :=
    map_displace_range' 1 w Nat.one_pos
  have hbroken : n.broken kind = (List.range' 1 w).foldl
      (breakStep (n.isKin kind) (n.kinParent kind)) ({}, []) := by
    rw [broken, hn, ← List.singleton_append, List.foldl_append, hskip₀]
  rw [broken, hm, ← List.cons_append, List.foldl_append, hskip, hbroken, ← hrange]
  exact foldl_breakStep_map (displace_injective k) (s := ({}, [])) (fun _ _ => h.isKin)
    fun _ _ => h.kinParent

theorem linearize (hln : n.Linearizable kind) (hlm : m.Linearizable kind) :
    ∃ n' m' order reports, n.linearize kind = ⟨.ok (n', order), reports⟩ ∧
      m.linearize kind = ⟨.ok (m', order.map (displace k)), reports⟩ ∧ Displaced k n' m' := by
  have hb := h.broken_eq hn hm hg hroot
  have ⟨order, reports, he, ho, hr⟩ := linearize_eq_broken hln
  have ⟨order', reports', he', ho', hr'⟩ := linearize_eq_broken hlm
  rw [hb, Hierarchy.order?_map (displace_injective k), ho] at ho'
  cases ho'
  have hsame : reports' = reports := by
    have hunique : Relator.RightUnique n.Reports := by
      intro i x y ⟨d, hd, hx⟩ ⟨e, he, hy⟩
      cases hd.symm.trans he
      exact hx.trans hy.symm
    rw [hb, List.forall₂_map_left_iff] at hr'
    have hr' : List.Forall₂ n.Reports (n.broken kind).2 reports' := by
      refine hr'.imp fun i x ⟨e, he, hx⟩ => ?_
      cases hd : n.get? i
      case none => cases (h.get?_eq_none hd).symm.trans he
      case some d =>
        have ⟨micro, hme⟩ := h.get? i d hd
        cases hme.symm.trans he
        exact ⟨d, hd, hx⟩
    exact List.right_unique_forall₂' hunique hr' hr
  rw [hb, hsame] at he'
  exact ⟨_, _, order, reports, he, he', h.cut⟩

end

theorem foldl_mergeAt (h : Displaced k n m) :
    Displaced k (order.foldl Model.mergeAt n) ((order.map (displace k)).foldl Model.mergeAt m) := by
  induction order generalizing n m
  case nil => exact h
  case cons i order hi => exact hi h.mergeAt

theorem foldl_settleAt (h : Displaced k n m) : Displaced k (order.foldl Model.settleAt n)
    ((order.map (displace k)).foldl Model.settleAt m) := by
  induction order generalizing n m
  case nil => exact h
  case cons i order hi => exact hi h.settleAt

theorem forM_judge_eq (h : Displaced k n m) (ho : ∀ i ∈ order, i < n.size) :
    forM (order.map (displace k)) m.judge = forM order n.judge := by
  induction order
  case nil => rfl
  case cons i order hi =>
    rw [List.map_cons, List.forM_cons, List.forM_cons, h.judge_eq (ho i List.mem_cons_self),
      hi fun j hj => ho j (List.mem_cons_of_mem i hj)]

section

open Outcome

-- What adding members to descriptions keeps.
def Beside (k : Nat) (n₀ n m : Model) : Prop := Displaced k n m ∧ n.size = n₀.size

variable {n₀ : Model} {members globals : List Member} {nodes nodes' : List (Nat × Element)}

theorem lockstep_addMember (h : Beside k n₀ n m) (hi : i < n₀.size) (x : Member) :
    Lockstep (Beside k n₀) (n.addMember i x) (m.addMember (displace k i) x) := by
  have ⟨h, hsize⟩ := h
  have ⟨d, hd⟩ := get?_of_lt_size (hsize ▸ hi)
  have ⟨micro, he⟩ := h.get? i d hd
  rw [addMember, addMember, get_eq_ok_iff.mpr hd, get_eq_ok_iff.mpr he, ofModel_ok, ofModel_ok,
    pure_bind, pure_bind]
  cases hf : d.isFinalized
  case true =>
    have hd' : d.addMember x = .error (.finalized d.name) := edit_eq_error_iff.mpr ⟨hf, rfl⟩
    have he' : ({ d.displace k with micro } : Description).addMember x =
        .error (.finalized d.name) := edit_eq_error_iff.mpr ⟨hf, rfl⟩
    rw [hd', he']
    exact .error
  case false =>
    let add (d : Description) : Description := { d with members := d.members.insert x.key x }
    let e : Description := { d.displace k with micro }
    have heo : e.isFinalized = false := hf
    have hd' : d.addMember x = .ok (add d) := edit_of_open hf _
    have he' : e.addMember x = .ok (add e) := edit_of_open heo _
    rw [hd', he', ofModel_ok, ofModel_ok, pure_bind, pure_bind]
    refine .report_bind (.pure ⟨?_, ?_⟩)
    · rw [set_eq_alter hd add, set_eq_alter he add]
      exact h.alter fun _ micro _ => ⟨micro, rfl⟩
    · rw [set_eq_alter hd add, size_alter, hsize]

theorem lockstep_addMembers (h : Beside k n₀ n m) (hi : i < n₀.size) :
    Lockstep (Beside k n₀) (n.addMembers i members) (m.addMembers (displace k i) members) := by
  have hsame : List.Forall₂ (fun x y => y = x) members members :=
    List.forall₂_same.mpr fun _ _ => rfl
  exact .foldlM hsame h fun _ _ x _ h he => he ▸ lockstep_addMember h hi x

theorem lockstep_addOwnMembers (h : Displaced k n m)
    (hn : List.Forall₂ (fun x y => y = (displace k x.1, x.2) ∧ x.1 < n.size) nodes nodes') :
    Lockstep (Displaced k) (n.addOwnMembers globals nodes) (m.addOwnMembers globals nodes') := by
  have hroot : Lockstep (Beside k n) (n.addMembers rootIndex globals)
      (m.addMembers rootIndex globals) := lockstep_addMembers ⟨h, rfl⟩ n.size_pos
  have hall (n' m' : Model) (hb : Beside k n n' m') : Lockstep (Beside k n)
      (nodes.foldlM (fun m x => m.addMembers x.1 (Member.declaredIn x.2)) n')
      (nodes'.foldlM (fun m x => m.addMembers x.1 (Member.declaredIn x.2)) m') := by
    refine .foldlM hn hb fun n' m' x y hb hxy => ?_
    obtain ⟨rfl, hx⟩ := hxy
    exact lockstep_addMembers hb hx
  exact (hroot.bind hall).mono fun _ _ hb => hb.1

end

end Displaced
end Model
end ModelAssembly
