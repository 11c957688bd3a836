import ModelAssembly.Proofs.Stages
/-!
Validation told apart from merging. Experiments are validated one by one while members are still
being merged down, but what is found wrong with one does not depend on the others, nor on what comes
later: the whole loop may as well look at the model that comes out of merging.

Main statements: `foldlM_concludeExperiment` for experiments; `foldl_settleAt_eq` for their locks,
which do not matter to what is merged; `finalizeAll_eq` for the walk at the end, which reports on
the descriptions that are still open, in order.
-/

namespace ModelAssembly

namespace Description

variable {d : Description}

-- An experiment fails if its type is unknown, or if it has an abstract action without being
-- abstract itself.
def Fails (d : Description) : Prop :=
  (∃ type, d.facets.get? Keyword.type = some type ∧ type ∉ Keyword.experimentTypes) ∨
    d.isAbstract = false ∧ ∃ action ∈ d.members.values, action.isAbstract = true

-- What is wrong with `d`, whatever its parent.
def faults (d : Description) : List Diagnostic :=
  d.abstractActions.map d.lacksAction ++ (d.badType.map d.unknownType).toList

theorem close_of_finalized (h : d.isFinalized = true) : d.close = d := by
  cases d
  cases h
  rfl

theorem abstractActions_eq_nil_iff : d.abstractActions = [] ↔
    (d.isAbstract = false → ∀ action ∈ d.members.values, action.isAbstract = false) := by
  unfold abstractActions
  cases d.isAbstract <;> simp [List.filter_eq_nil_iff]

theorem badType_eq_none_iff (h : d.kind = .experiment) : d.badType = none ↔
    ∀ type, d.facets.get? Keyword.type = some type → type ∈ Keyword.experimentTypes := by
  simp [badType, isExperiment, h, Option.filter_eq_none_iff]

theorem faults_eq_nil_iff (h : d.kind = .experiment) : d.faults = [] ↔ ¬ d.Fails := by
  simp only [faults, List.append_eq_nil_iff, List.map_eq_nil_iff, Option.toList_eq_nil_iff,
    Option.map_eq_none_iff, abstractActions_eq_nil_iff, badType_eq_none_iff h, Fails, not_or,
    not_and, not_exists, not_not, Bool.not_eq_true]
  exact and_comm

-- Only species must not extend an experiment.
theorem problems_of_not_species (h : d.kind ≠ .species) (parent : Option Description) :
    d.problems parent = d.faults := by
  simp [problems, faults, experimentParent, h]

-- Only the kind and the name of the parent matter.
theorem problems_congr {p p' : Option Description}
    (h : p'.map (fun x => (x.kind, x.name)) = p.map fun x => (x.kind, x.name)) :
    d.problems p' = d.problems p := by
  cases p <;> cases p'
  case none.none => rfl
  case none.some => simp at h
  case some.none => simp at h
  case some.some x y =>
    have ⟨hk, hn⟩ : y.kind = x.kind ∧ y.name = x.name := by simpa using h
    have he : d.extendsExperiment y = d.extendsExperiment x := by simp only [extendsExperiment, hn]
    have hp : (d.experimentParent (some y)).map d.extendsExperiment =
        (d.experimentParent (some x)).map d.extendsExperiment := by
      by_cases hx : d.kind = .species ∧ x.kind = .experiment
      case pos => simp [experimentParent, Option.filter, isExperiment, hx, hk, he]
      case neg =>
        by_cases hs : d.kind = .species <;>
          simp_all [experimentParent, Option.filter, isExperiment]
    rw [problems, problems, hp]

theorem bare_mergedWith (d : Description) (p : Option Description) :
    (d.mergedWith p).bare = d.bare := by
  cases p <;> rfl

theorem isFinalized_mergedWith (d : Description) (p : Option Description) :
    (d.mergedWith p).isFinalized = d.isFinalized := by
  cases p <;> rfl

theorem mergedWith_close (d : Description) (p : Option Description) :
    d.close.mergedWith p = (d.mergedWith p).close := by
  cases p <;> rfl

theorem parent_mergedWith (d : Description) (p : Option Description) :
    (d.mergedWith p).parent = d.parent := by
  cases p <;> rfl

theorem mergedWith_map_close (d : Description) (p : Option Description) :
    d.mergedWith (p.map close) = d.mergedWith p := by
  cases p <;> rfl

end Description

open Description

namespace Model

variable {m n : Model} {i j : Nat} {d : Description} {is js order : List Nat}

-- Gives the description at `i` the members of its parent.
def mergeAt (m : Model) (i : Nat) : Model := m.alter i (·.mergedWith (m.parentOf i))

-- Merges members down into the experiment at `i`, and closes it whatever is wrong with it.
def settleAt (m : Model) (i : Nat) : Model := m.alter i fun d => (d.mergedWith (m.parentOf i)).close

theorem inherit_eq (hd : m.get? i = some d) (ho : d.isFinalized = false) :
    m.inherit i = .ok (m.mergeAt i) := by
  have hm (p : Description) : m.modify i (·.inheritMembers p.name p.members.values) =
      .ok (m.alter i (·.mergedWith (some p))) := modify_edit hd ho _
  simp only [inherit, get_eq_ok_iff.mpr hd, mergeAt]
  cases m.parentOf i
  case some p => exact hm p
  case none =>
    refine congrArg Except.ok (mapDescriptions_id fun j e _ => ?_).symm
    split <;> rfl

-- The verdict on the experiment at `i`.
def judge (m : Model) (i : Nat) : Outcome Unit := do
  let d ← .ofModel (m.get i)
  .report d.faults
  if d.faults.isEmpty then
    return
  .fail (.experimentFailed d.name)

theorem judge_of_get? (hd : m.get? i = some d) : m.judge i =
    if d.faults = [] then pure () else ⟨.error (.experimentFailed d.name), d.faults⟩ := by
  simp only [judge, get_eq_ok_iff.mpr hd, Outcome.ofModel_ok, pure_bind]
  cases hf : d.faults
  case nil => rfl
  case cons x xs => exact congrArg (Outcome.mk _) (List.append_nil _)

theorem judge_congr (h : n.get? i = m.get? i) : n.judge i = m.judge i := by
  rw [judge, judge, get, get, h]

theorem get?_settleAt (hd : m.get? i = some d) :
    (m.settleAt i).get? i = some (d.mergedWith (m.parentOf i)).close := by
  simp [settleAt, hd]

theorem get?_settleAt_of_ne (h : j ≠ i) : (m.settleAt i).get? j = m.get? j := by
  simp [settleAt, h]

-- Settling other descriptions makes no difference.
theorem get?_foldl_settleAt (h : i ∉ order) : (order.foldl settleAt m).get? i = m.get? i := by
  induction order generalizing m
  case nil => rfl
  case cons x order hi =>
    rw [List.foldl_cons, hi fun hm => h (List.mem_cons_of_mem x hm)]
    exact get?_settleAt_of_ne fun he => h (he ▸ List.mem_cons_self)

theorem concludeExperiment_eq (hd : m.get? i = some d) (ho : d.isFinalized = false)
    (hk : d.kind = .experiment) : Assembler.concludeExperiment m i = (do
      (m.settleAt i).judge i
      return m.settleAt i) := by
  let e := d.mergedWith (m.parentOf i)
  have hb : e.bare = d.bare := bare_mergedWith d _
  have he : (m.mergeAt i).get? i = some e := by simp [mergeAt, hd, e]
  have heo : e.isFinalized = false := (isFinalized_mergedWith d _).trans ho
  have hke : e.kind ≠ .species := by simp [kind_of_bare hb, hk]
  have hp : e.problems ((m.mergeAt i).parentOf i) = e.faults := problems_of_not_species hke _
  have hs : (m.mergeAt i).set i e.close = m.settleAt i := by
    rw [set_eq_alter he close, mergeAt, alter, alter, mapDescriptions_mapDescriptions]
    refine mapDescriptions_congr fun j x _ => ?_
    split <;> rfl
  have hfin : (m.mergeAt i).finalize i = ⟨.ok (m.settleAt i, e.faults.isEmpty), e.faults⟩ := by
    rw [finalize]
    simp only [get_eq_ok_iff.mpr he, Outcome.ofModel_ok, pure_bind, heo, hp, hs]
    exact congrArg (Outcome.mk _) (List.append_nil _)
  have hset : (m.settleAt i).get? i = some e.close := get?_settleAt hd
  have hf : e.close.faults = e.faults := rfl
  rw [Assembler.concludeExperiment, inherit_eq hd ho, Outcome.ofModel_ok, pure_bind,
    Outcome.bind_of_eq hfin, judge_of_get? hset, hf]
  cases hfs : e.faults
  case nil => rfl
  case cons => simp [get_eq_ok_iff.mpr hset, Outcome.fail, Outcome.bind_eq]

-- Experiments may be validated when all of them are merged: what is wrong with each is still there.
theorem foldlM_concludeExperiment (hn : order.Nodup)
    (ho : ∀ i ∈ order, ∃ d, m.get? i = some d ∧ d.isFinalized = false ∧ d.kind = .experiment) :
    order.foldlM Assembler.concludeExperiment m = (do
      forM order (order.foldl settleAt m).judge
      return order.foldl settleAt m) := by
  induction order generalizing m
  case nil => rfl
  case cons i order hi =>
    have ⟨hne, hn⟩ := List.nodup_cons.mp hn
    have ⟨d, hd, hdo, hk⟩ := ho i List.mem_cons_self
    have ho' (j) (hj : j ∈ order) :
        ∃ d, (m.settleAt i).get? j = some d ∧ d.isFinalized = false ∧ d.kind = .experiment := by
      have hji : j ≠ i := fun he => hne (he ▸ hj)
      rw [get?_settleAt_of_ne hji]
      exact ho j (List.mem_cons_of_mem i hj)
    have hj : (m.settleAt i).judge i = (order.foldl settleAt (m.settleAt i)).judge i :=
      (judge_congr (get?_foldl_settleAt hne)).symm
    rw [List.foldlM_cons, concludeExperiment_eq hd hdo hk, bind_assoc]
    simp only [pure_bind, hi hn ho', hj, List.foldl_cons, List.forM_cons, bind_assoc]

theorem forM_judge_congr (h : ∀ i ∈ order, n.get? i = m.get? i) :
    forM order n.judge = forM order m.judge := by
  induction order
  case nil => rfl
  case cons i order hi =>
    rw [List.forM_cons, List.forM_cons, judge_congr (h i List.mem_cons_self),
      hi fun j hj => h j (List.mem_cons_of_mem i hj)]

theorem forM_judge_of_passed (h : ∀ i ∈ order, ∃ d, m.get? i = some d ∧ d.faults = []) :
    forM order m.judge = pure () := by
  induction order
  case nil => rfl
  case cons i order hi =>
    have ⟨d, hd, hf⟩ := h i List.mem_cons_self
    rw [List.forM_cons, judge_of_get? hd, if_pos hf, pure_bind]
    exact hi fun j hj => h j (List.mem_cons_of_mem i hj)

theorem forM_judge_eq_ok_iff (h : ∀ i ∈ order, ∃ d, m.get? i = some d) :
    (forM order m.judge).result = .ok () ↔ ∀ i ∈ order, ∀ d, m.get? i = some d → d.faults = [] := by
  induction order
  case nil => simp
  case cons i order hi =>
    have ⟨d, hd⟩ := h i List.mem_cons_self
    have hrest := hi fun j hj => h j (List.mem_cons_of_mem i hj)
    rw [List.forM_cons, judge_of_get? hd, List.forall_mem_cons, ← hrest]
    by_cases hf : d.faults = []
    case pos => simp [hf, hd]
    case neg => simp [hf, hd, Outcome.bind_eq]

-- The first experiment that fails is the only one that is reported.
theorem forM_judge_of_failed {pre post : List Nat} (he : order = pre ++ i :: post)
    (hpre : ∀ j ∈ pre, ∃ d, m.get? j = some d ∧ d.faults = []) (hd : m.get? i = some d)
    (hf : d.faults ≠ []) :
    forM order m.judge = ⟨.error (.experimentFailed d.name), d.faults⟩ := by
  induction pre generalizing order
  case nil =>
    rw [he, List.nil_append, List.forM_cons, judge_of_get? hd, if_neg hf]
    rfl
  case cons j pre hi =>
    have ⟨e, hje, hef⟩ := hpre j List.mem_cons_self
    rw [he, List.cons_append, List.forM_cons, judge_of_get? hje, if_pos hef, pure_bind]
    exact hi rfl fun k hk => hpre k (List.mem_cons_of_mem j hk)

-- Closes the descriptions at `is`.
def closeAt (m : Model) (is : List Nat) : Model :=
  m.mapDescriptions fun i d => if i ∈ is then d.close else d

-- The description at `i` is not finalized.
def isOpen (m : Model) (i : Nat) : Bool := (m.get? i).any fun d => !d.isFinalized

-- What is wrong with the description at `i`.
def problemsAt (m : Model) (i : Nat) : List Diagnostic :=
  ((m.get? i).map fun d => d.problems (m.parentOf i)).getD []

theorem problemsAt_of_get? (hd : m.get? i = some d) :
    m.problemsAt i = d.problems (m.parentOf i) := by
  simp [problemsAt, hd]

theorem isOpen_of_get? (hd : m.get? i = some d) : m.isOpen i = !d.isFinalized := by
  simp [isOpen, hd]

@[simp]
theorem get?_closeAt : (m.closeAt is).get? i =
    (m.get? i).map fun d => if i ∈ is then d.close else d :=
  get?_mapDescriptions

@[simp]
theorem size_closeAt : (m.closeAt is).size = m.size := size_mapDescriptions

theorem closeAt_nil : m.closeAt [] = m := mapDescriptions_id fun _ _ _ => by simp

theorem closeAt_closeAt : (m.closeAt is).closeAt js = m.closeAt (is ++ js) := by
  refine mapDescriptions_mapDescriptions.trans (mapDescriptions_congr fun i d _ => ?_)
  by_cases his : i ∈ is
  case pos => by_cases hjs : i ∈ js <;> simp [his, hjs, close]
  case neg => by_cases hjs : i ∈ js <;> simp [his, hjs]

theorem closeAt_congr (h : ∀ i, i ∈ is ↔ i ∈ js) : m.closeAt is = m.closeAt js :=
  mapDescriptions_congr fun i d _ => by simp only [h i]

-- Locks do not matter to what is merged.
theorem parentOf_closeAt : (m.closeAt is).parentOf i = m.parentOf i ∨
    (m.closeAt is).parentOf i = (m.parentOf i).map close := by
  have hlink : ((m.closeAt is).get? i).bind (·.parent) = (m.get? i).bind (·.parent) := by
    rw [get?_closeAt]
    cases m.get? i
    case none => rfl
    case some d => by_cases hi : i ∈ is <;> simp [hi, close]
  rw [parentOf, parentOf, ← Option.bind_assoc, ← Option.bind_assoc, hlink]
  cases (m.get? i).bind (·.parent)
  case none => exact .inl rfl
  case some link =>
    cases link
    case builtIn => exact .inl rfl
    case declared p => by_cases hp : p ∈ is <;> simp [resolve, hp]

theorem mergeAt_closeAt : (m.closeAt is).mergeAt i = (m.mergeAt i).closeAt is := by
  have hmerged (d : Description) :
      d.mergedWith ((m.closeAt is).parentOf i) = d.mergedWith (m.parentOf i) := by
    have hparent : (m.closeAt is).parentOf i = _ ∨ (m.closeAt is).parentOf i = _ := parentOf_closeAt
    cases hparent
    case inl h => rw [h]
    case inr h => rw [h, mergedWith_map_close]
  rw [mergeAt, funext hmerged, alter, closeAt, closeAt, mergeAt, alter,
    mapDescriptions_mapDescriptions, mapDescriptions_mapDescriptions]
  refine mapDescriptions_congr fun j d _ => ?_
  by_cases his : j ∈ is
  case pos => simp only [his, if_true, mergedWith_close, apply_ite close]
  case neg => simp only [his, if_false]

theorem foldl_mergeAt_closeAt :
    order.foldl mergeAt (m.closeAt is) = (order.foldl mergeAt m).closeAt is := by
  induction order generalizing m
  case nil => rfl
  case cons i order hi => rw [List.foldl_cons, List.foldl_cons, mergeAt_closeAt, hi]

-- To finalize after each merge is to finalize when all is merged.
theorem foldl_settleAt_eq : order.foldl settleAt m = (order.foldl mergeAt m).closeAt order := by
  induction order generalizing m
  case nil => exact closeAt_nil.symm
  case cons i order hi =>
    have hstep : m.settleAt i = (m.mergeAt i).closeAt [i] := by
      simp only [settleAt, mergeAt, alter, closeAt, mapDescriptions_mapDescriptions]
      refine mapDescriptions_congr fun j d _ => ?_
      by_cases hj : j = i <;> simp [hj]
    rw [List.foldl_cons, hi, hstep, foldl_mergeAt_closeAt, closeAt_closeAt]
    rfl

-- Nor do they matter to what is wrong with a description.
theorem problemsAt_closeAt : (m.closeAt is).problemsAt i = m.problemsAt i := by
  cases hd : m.get? i
  case none => simp [problemsAt, hd]
  case some d =>
    have hd' : (m.closeAt is).get? i = some (if i ∈ is then d.close else d) := by simp [hd]
    have hparent : ((m.closeAt is).parentOf i).map (fun x => (x.kind, x.name)) =
        (m.parentOf i).map fun x => (x.kind, x.name) := by
      have hlocks : (m.closeAt is).parentOf i = _ ∨ (m.closeAt is).parentOf i = _ :=
        parentOf_closeAt
      cases hlocks
      case inl h => rw [h]
      case inr h =>
        rw [h, Option.map_map]
        rfl
    rw [problemsAt_of_get? hd, problemsAt_of_get? hd', ← problems_congr hparent]
    split <;> rfl

theorem isOpen_closeAt : (m.closeAt is).isOpen i = (m.isOpen i && !decide (i ∈ is)) := by
  cases hd : m.get? i
  case none => simp [isOpen, hd]
  case some d => by_cases hi : i ∈ is <;> simp [isOpen, hd, hi, close]

-- What is wrong with those of the descriptions at `is` that are not finalized, in order.
def openProblems (m : Model) (is : List Nat) : List Diagnostic :=
  (is.filter m.isOpen).flatMap m.problemsAt

theorem openProblems_append :
    m.openProblems (is ++ js) = m.openProblems is ++ m.openProblems js := by
  simp [openProblems]

theorem openProblems_singleton (hd : m.get? i = some d) :
    m.openProblems [i] = if d.isFinalized then [] else d.problems (m.parentOf i) := by
  cases ho : d.isFinalized <;>
    simp [openProblems, isOpen_of_get? hd, ho, problemsAt_of_get? hd, List.flatMap]

-- What is closed is not reported on.
theorem openProblems_closeAt_singleton (h : m.isOpen i = true → i ∉ is) :
    (m.closeAt is).openProblems [i] = m.openProblems [i] := by
  cases ho : m.isOpen i
  case false => simp [openProblems, isOpen_closeAt, ho]
  case true => simp [openProblems, isOpen_closeAt, ho, h ho, problemsAt_closeAt, List.flatMap]

theorem finalize_eq (hi : i < m.size) : m.finalize i =
    ⟨.ok (m.closeAt [i], (m.openProblems [i]).isEmpty), m.openProblems [i]⟩ := by
  have ⟨d, hd⟩ := get?_of_lt_size hi
  have hset : m.set i d.close = m.closeAt [i] := by
    rw [set_eq_alter hd close, alter, closeAt]
    simp
  rw [openProblems_singleton hd, ← hset]
  simp only [finalize, get_eq_ok_iff.mpr hd, Outcome.ofModel_ok, pure_bind]
  cases ho : d.isFinalized
  case true =>
    rw [close_of_finalized ho, set_self hd]
    rfl
  case false => exact congrArg (Outcome.mk _) (List.append_nil _)

-- A walk closes everything that it comes by, and reports on what it finds open.
theorem foldlM_finalize (h : ∀ i ∈ is, i < m.size) :
    ∃ ds, is.foldlM (fun m i => do return (← m.finalize i).1) m = ⟨.ok (m.closeAt is), ds⟩ ∧
      ((is.filter m.isOpen).Nodup → ds = m.openProblems is) := by
  have ⟨n, ds, he, hn, hds⟩ := Outcome.foldlM_rule (l := is) (s := m)
    (f := fun m i => do return (← m.finalize i).1)
    (P := fun pre n ds => n = m.closeAt pre ∧
      ((pre.filter m.isOpen).Nodup → ds = m.openProblems pre))
    ⟨closeAt_nil.symm, fun _ => rfl⟩ (by
      intro pre i post n ds hl ⟨hn, hds⟩
      subst hn
      have hi : i < (m.closeAt pre).size := by
        rw [size_closeAt]
        exact h i (by simp [hl])
      refine ⟨m.closeAt (pre ++ [i]), (m.closeAt pre).openProblems [i], ?_, rfl, ?_⟩
      · rw [Outcome.bind_of_eq (finalize_eq hi), closeAt_closeAt]
        exact congrArg (Outcome.mk _) (List.append_nil _)
      · intro hnd
        rw [List.filter_append] at hnd
        have ⟨hpre, _, hdisj⟩ := List.nodup_append.mp hnd
        have hni (ho : m.isOpen i = true) : i ∉ pre :=
          fun hm => hdisj i (by simp [hm, ho]) i (by simp [ho]) rfl
        rw [hds hpre, openProblems_closeAt_singleton hni, openProblems_append])
  exact ⟨ds, hn ▸ he, hds⟩

-- The root comes last, and its problems alone decide.
theorem finalizeAll_eq (h : ∀ i ∈ m.walk rootIndex, i < m.size) :
    ∃ ds, m.finalizeAll =
        ⟨.ok (m.closeAt ((m.walk rootIndex).drop 1 ++ [rootIndex]),
          ((m.closeAt ((m.walk rootIndex).drop 1)).openProblems [rootIndex]).isEmpty),
        ds ++ (m.closeAt ((m.walk rootIndex).drop 1)).openProblems [rootIndex]⟩ ∧
      ((((m.walk rootIndex).drop 1).filter m.isOpen).Nodup →
        ds = m.openProblems ((m.walk rootIndex).drop 1)) := by
  have hdrop (i) (hi : i ∈ (m.walk rootIndex).drop 1) : i < m.size := h i (List.mem_of_mem_drop hi)
  have ⟨ds, he, hds⟩ := foldlM_finalize hdrop
  refine ⟨ds, ?_, hds⟩
  rw [finalizeAll, Outcome.bind_of_eq he, finalize_eq (i := rootIndex) (size_pos _),
    closeAt_closeAt]

end Model
end ModelAssembly
