import ModelAssembly.Proofs.Drafting
import ModelAssembly.Proofs.Walk
/-!
The verdict on a request, in terms of its draft: which requests come to a model, which error the
others come to, and what validation reports in either case.

Main statements: `Drafted.walk_eq` says that a walk through a draft comes by each own description
once, in the order of their indices; `assemble_verdict` puts the verdict together.
-/

namespace ModelAssembly

open Description

namespace Model

variable {m : Model} {i : Nat}

-- The own species, in the order in which a walk comes by them.
def ownSpecies (m : Model) : List Nat := (m.walk rootIndex).filter (m.isKin .species)

-- What validation reports on the species at `i`: that it extends an experiment, and each abstract
-- action that it has without being abstract itself.
def speciesReports (m : Model) (i : Nat) : List Diagnostic :=
  match m.get? i with
  | none => []
  | some d =>
    ((m.parentOf i).filter (·.isExperiment)).toList.map d.extendsExperiment ++
      if d.isAbstract then [] else (d.members.values.filter (·.isAbstract)).map d.lacksAction

theorem problemsAt_of_species (h : m.isKin .species i = true) :
    m.problemsAt i = m.speciesReports i := by
  have ⟨d, hd, hk, _⟩ := isKin_iff.mp h
  have hx : d.badType = none := by simp [badType, isExperiment, hk]
  rw [problemsAt_of_get? hd, speciesReports, hd, problems, experimentParent, if_pos hk, hx]
  have ha : d.abstractActions.map d.lacksAction =
      if d.isAbstract then [] else (d.members.values.filter (·.isAbstract)).map d.lacksAction := by
    unfold abstractActions
    cases d.isAbstract <;> rfl
  cases (m.parentOf i).filter (·.isExperiment) <;> simp [ha]

end Model

namespace Assembler

variable {a : Assembler} {r : Request} {m : Model} {i : Nat} {experiments : List Nat}

namespace Linking.Drafted

open Model

variable {l : Linking a r} (h : l.Drafted m experiments)

include h

theorem walk_eq (hg : ∀ g ∈ r.grafts.entries, g.2.InRange) : ∃ grafted,
    m.walk rootIndex = rootIndex :: (grafted ++ List.range' l.base (m.size - l.base)) ∧
      ∀ i ∈ grafted, 0 < i ∧ i < l.base :=
  ⟨_, h.extended.walk_eq, fun _ hi => h.extended.lt_base_of_mem_walkTo hg hi⟩

theorem isKin_root {kind : DescriptionKind} (hk : kind ≠ .model) :
    m.isKin kind rootIndex = false := by
  have hne : ¬ m.root.kind = kind := fun he => hk (he ▸ h.root.1)
  simp [isKin, get?_rootIndex, hne]

theorem le_of_isKin {kind : DescriptionKind} (hk : kind ≠ .model) (hi : m.isKin kind i = true) :
    l.base ≤ i ∧ i < m.size := by
  have ⟨e, he, _, ho⟩ := isKin_iff.mp hi
  have h0 : i ≠ rootIndex := by
    intro h0
    rw [h0, h.isKin_root hk] at hi
    cases hi
  exact ⟨(h.extended.isOwn_iff h0 he).mp ho, lt_size_of_get? he⟩

-- The experiments of a draft are those that are judged.
theorem mem_experiments : i ∈ experiments ↔ m.isKin .experiment i = true := by
  rw [h.mem]
  by_cases hi : l.base ≤ i ∧ i < l.model.size
  case pos =>
    have h0 : i ≠ rootIndex := Nat.ne_of_gt (Nat.lt_of_lt_of_le l.base_pos hi.1)
    obtain ⟨d, e, hd, he, ⟨hb, _⟩, _⟩ := h.get? i h0 hi.2
    simp [isKin, hd, he, kind_of_bare hb, isOwn_of_bare hb]
  case neg =>
    refine iff_of_false (fun hk => hi (l.placed_of_isKin (by decide) hk)) fun hk => ?_
    obtain ⟨hle, hlt⟩ := h.le_of_isKin (by decide) hk
    obtain ⟨d', hd', hkd', _⟩ := isKin_iff.mp hk
    obtain ⟨ha, he⟩ := h.extended.eq_size_of_le (by omega) hd'
    obtain ⟨d, hd, hkd, _⟩ := h.scheduler ha
    cases hd'.symm.trans (he ▸ hd)
    cases hkd.symm.trans hkd'

-- All descriptions of the grafts are finalized.
variable (hfin : ∀ g ∈ r.grafts.entries, ∀ i d, g.2.get? i = some d → d.isFinalized = true)

include hfin in
theorem isFinalized_of_grafted {e : Description} (h0 : i ≠ rootIndex) (hi : i < l.base)
    (he : m.get? i = some e) : e.isFinalized = true := by
  have hle := l.mirrors.le
  have ⟨d, e', hd, he', _, hlock⟩ := h.get? i h0 (by omega)
  cases he.symm.trans he'
  refine hlock.mpr (.inl ?_)
  have ⟨g, hg, offset, k, _, _, hik, hk, hblock⟩ := l.exists_block (Nat.pos_of_ne_zero h0) hi
  have ⟨x, hx⟩ := get?_of_lt_size hk
  have hdi := hblock k hk
  rw [hx, ← hik, hd] at hdi
  cases hdi
  exact hfin g hg k x hx

include hfin in
-- Other than the root, it is the own species that a draft leaves open.
theorem isOpen_eq (h0 : i ≠ rootIndex) : m.isOpen i = m.isKin .species i := by
  cases he : m.get? i
  case none => simp [isOpen, isKin, he]
  case some e =>
    have hlt := lt_size_of_get? he
    cases Nat.lt_or_ge i l.base
    case inl hgraft =>
      have hown : e.isOwn = false := by
        simpa using fun ho => Nat.not_le.mpr hgraft ((h.extended.isOwn_iff h0 he).mp ho)
      simp [isOpen, isKin, he, hown, h.isFinalized_of_grafted hfin h0 hgraft he]
    case inr hplaced =>
      have hown := (h.extended.isOwn_iff h0 he).mpr hplaced
      cases Nat.lt_or_ge i l.model.size
      case inl hi =>
        obtain ⟨d, e', hd, he', ⟨hb, _⟩, hlock⟩ := h.get? i h0 hi
        cases he.symm.trans he'
        have hf := (l.fresh_of_le hplaced hd).1
        have hkind : e.kind = .species ∨ e.kind = .experiment := kind_of_bare hb ▸ hf.kind
        have hx : i ∈ experiments ↔ e.kind = .experiment := by
          simp [h.mem_experiments, isKin, he, hown]
        rw [hf.isFinalized, hx] at hlock
        cases hkind
        case inl hs =>
          have hopen : e.isFinalized = false := by simpa [hs] using hlock
          simp [isOpen, isKin, he, hs, hown, hopen]
        case inr hs =>
          have hclosed : e.isFinalized = true := by simpa [hs] using hlock
          simp [isOpen, isKin, he, hs, hclosed]
      case inr hge =>
        obtain ⟨ha, hi⟩ := h.extended.eq_size_of_le hge he
        obtain ⟨d, hd, hk, _, hopen, _⟩ := h.scheduler ha
        cases he.symm.trans (hi ▸ hd)
        simp [isOpen, isKin, he, hk, hown, hopen]

section

variable (hg : ∀ g ∈ r.grafts.entries, g.2.InRange)

include hg

theorem ne_rootIndex_of_mem_drop (hi : i ∈ (m.walk rootIndex).drop 1) : i ≠ rootIndex := by
  have ⟨grafted, hw, hgrafted⟩ := h.walk_eq hg
  rw [hw, List.drop_one, List.tail_cons] at hi
  cases List.mem_append.mp hi
  case inl hi => exact Nat.ne_of_gt (hgrafted i hi).1
  case inr hi =>
    have ⟨hle, _⟩ := List.mem_range'_1.mp hi
    exact Nat.ne_of_gt (Nat.lt_of_lt_of_le l.base_pos hle)

theorem mem_walk_of_le (hle : l.base ≤ i) (hlt : i < m.size) : i ∈ (m.walk rootIndex).drop 1 := by
  have ⟨grafted, hw, _⟩ := h.walk_eq hg
  rw [hw, List.drop_one, List.tail_cons]
  exact List.mem_append_right _ (List.mem_range'_1.mpr ⟨hle, by omega⟩)

-- All that can be wrong with the root is that it has abstract actions.
theorem openProblems_root :
    (m.closeAt ((m.walk rootIndex).drop 1)).openProblems [rootIndex] =
      m.root.abstractActions.map m.root.lacksAction := by
  have hne (_ : m.isOpen rootIndex = true) : rootIndex ∉ (m.walk rootIndex).drop 1 :=
    fun hm => h.ne_rootIndex_of_mem_drop hg hm rfl
  have hbad : m.root.badType = none := by simp [badType, isExperiment, h.root.1]
  rw [openProblems_closeAt_singleton hne, openProblems_singleton (get?_rootIndex m),
    h.root.2.2, problems_of_not_species (by simp [h.root.1]), faults, hbad]
  simp

theorem ownSpecies_eq :
    m.ownSpecies = (List.range' l.base (m.size - l.base)).filter (m.isKin .species) := by
  have ⟨grafted, hw, hgrafted⟩ := h.walk_eq hg
  have hno : grafted.filter (m.isKin .species) = [] := by
    rw [List.filter_eq_nil_iff]
    intro i hi hk
    exact Nat.not_le.mpr (hgrafted i hi).2 (h.le_of_isKin (by decide) hk).1
  rw [ownSpecies, hw, List.filter_cons, h.isKin_root (by decide), List.filter_append, hno]
  rfl

theorem nodup_ownSpecies : m.ownSpecies.Nodup := by
  rw [h.ownSpecies_eq hg]
  exact List.Nodup.filter _ List.nodup_range'

theorem mem_ownSpecies : i ∈ m.ownSpecies ↔ m.isKin .species i = true := by
  rw [h.ownSpecies_eq hg, List.mem_filter, List.mem_range'_1]
  constructor
  case mp => exact And.right
  case mpr =>
    intro hk
    have ⟨hle, hlt⟩ := h.le_of_isKin (by decide) hk
    exact ⟨by omega, hk⟩

include hfin

-- The last walk finalizes all that is left and reports on the species; the root decides.
theorem finalizeAll_eq : m.finalizeAll =
    ⟨.ok (m.mapDescriptions fun _ d => d.close, m.root.abstractActions.isEmpty),
      m.ownSpecies.flatMap m.speciesReports ++
        m.root.abstractActions.map m.root.lacksAction⟩ := by
  have hin := h.extended.inRange (l.inRange_model hg)
  have ⟨ds, he, hds⟩ := Model.finalizeAll_eq (m := m) fun i hi => hin.contained.lt_of_mem_walk hi
  have hopen : ((m.walk rootIndex).drop 1).filter m.isOpen = m.ownSpecies := by
    have hcongr : ((m.walk rootIndex).drop 1).filter m.isOpen =
        ((m.walk rootIndex).drop 1).filter (m.isKin .species) :=
      List.filter_congr fun i hi => h.isOpen_eq hfin (h.ne_rootIndex_of_mem_drop hg hi)
    have ⟨grafted, hw, _⟩ := h.walk_eq hg
    rw [hcongr, ownSpecies, hw, List.filter_cons, h.isKin_root (by decide)]
    rfl
  have hspecies : m.openProblems ((m.walk rootIndex).drop 1) =
      m.ownSpecies.flatMap m.speciesReports := by
    rw [openProblems, hopen]
    refine List.flatMap_congr fun i hi => ?_
    exact problemsAt_of_species ((h.mem_ownSpecies hg).mp hi)
  have hclosed : m.closeAt ((m.walk rootIndex).drop 1 ++ [rootIndex]) =
      m.mapDescriptions fun _ d => d.close := by
    refine mapDescriptions_congr fun i d hd => ?_
    split
    case isTrue => rfl
    case isFalse hno =>
      have h0 : i ≠ rootIndex := fun h0 => hno (by simp [h0])
      have hgraft : i < l.base := by
        apply Nat.lt_of_not_le
        exact fun hle => hno (List.mem_append_left _ (h.mem_walk_of_le hg hle (lt_size_of_get? hd)))
      exact (close_of_finalized (h.isFinalized_of_grafted hfin h0 hgraft hd)).symm
  rw [he, hds (hopen ▸ h.nodup_ownSpecies hg), hspecies, hclosed, h.openProblems_root hg]
  simp

end

end Linking.Drafted

-- No own experiment of `m` fails.
def ExperimentsPass (m : Model) : Prop :=
  ∀ i d, m.get? i = some d → d.kind = .experiment → d.isOwn = true → ¬ d.Fails

theorem Linking.Drafted.experimentsPass_iff {l : Linking a r} (h : l.Drafted m experiments) :
    ExperimentsPass m ↔ ∀ i ∈ experiments, ∃ d, m.get? i = some d ∧ d.faults = [] := by
  constructor
  case mp =>
    intro hp i hi
    have ⟨d, hd, hk, ho⟩ := Model.isKin_iff.mp (h.mem_experiments.mp hi)
    exact ⟨d, hd, (faults_eq_nil_iff hk).mpr (hp i d hd hk ho)⟩
  case mpr =>
    intro hp i d hd hk ho
    have ⟨e, he, hf⟩ := hp i (h.mem_experiments.mpr (Model.isKin_iff.mpr ⟨d, hd, hk, ho⟩))
    cases hd.symm.trans he
    exact (faults_eq_nil_iff hk).mp hf

theorem Linking.Drafted.exists_first_failure {l : Linking a r} (h : l.Drafted m experiments)
    (hno : ¬ ExperimentsPass m) : ∃ before i after d, experiments = before ++ i :: after ∧
      (∀ j ∈ before, ∃ e, m.get? j = some e ∧ e.kind = .experiment ∧ e.faults = []) ∧
      m.get? i = some d ∧ d.kind = .experiment ∧ d.faults ≠ [] := by
  have hexp (j) (hj : j ∈ experiments) : ∃ e, m.get? j = some e ∧ e.kind = .experiment := by
    have ⟨e, he, hk, _⟩ := Model.isKin_iff.mp (h.mem_experiments.mp hj)
    exact ⟨e, he, hk⟩
  have ⟨i, hi⟩ : ∃ i, experiments.find?
      (fun i => (m.get? i).any fun d => !d.faults.isEmpty) = some i := by
    rw [← Option.isSome_iff_exists, List.find?_isSome]
    by_contra hall
    refine hno (h.experimentsPass_iff.mpr fun i hi => ?_)
    have ⟨d, hd, _⟩ := hexp i hi
    refine ⟨d, hd, ?_⟩
    by_contra hf
    exact hall ⟨i, hi, by simp [hd, hf]⟩
  have ⟨hfi, before, after, hsplit, hbefore⟩ := List.find?_eq_some_iff_append.mp hi
  have ⟨d, hd, hf⟩ := (Option.any_eq_true _ _).mp hfi
  have ⟨e, he, hk⟩ := hexp i (by simp [hsplit])
  cases hd.symm.trans he
  refine ⟨before, i, after, d, hsplit, fun j hj => ?_, hd, hk, by simpa using hf⟩
  have ⟨e, he, hk⟩ := hexp j (by simp [hsplit, hj])
  exact ⟨e, he, hk, by simpa [he] using hbefore j hj⟩

-- The first experiment that fails is all that is validated.
theorem Linking.Drafted.validate_of_failed {l : Linking a r} (h : l.Drafted m experiments)
    (hno : ¬ ExperimentsPass m) : ∃ before i after d, experiments = before ++ i :: after ∧
      (∀ j ∈ before, ∀ e, m.get? j = some e → ¬ e.Fails) ∧ m.get? i = some d ∧ d.Fails ∧
      d.faults ≠ [] ∧ validate m experiments = ⟨.error (.experimentFailed d.name), d.faults⟩ := by
  have ⟨before, i, after, d, hsplit, hbefore, hd, hk, hf⟩ := h.exists_first_failure hno
  have hjudge := Model.forM_judge_of_failed hsplit
    (fun j hj => have ⟨e, he, _, hf⟩ := hbefore j hj; ⟨e, he, hf⟩) hd hf
  have hfails : d.Fails := by
    by_contra hpass
    exact hf ((faults_eq_nil_iff hk).mpr hpass)
  refine ⟨before, i, after, d, hsplit, fun j hj e he => ?_, hd, hfails, hf, ?_⟩
  · have ⟨e', he', hk, hf⟩ := hbefore j hj
    cases he.symm.trans he'
    exact (faults_eq_nil_iff hk).mp hf
  · rw [validate, hjudge]
    rfl

end Assembler

open Assembler

end ModelAssembly
