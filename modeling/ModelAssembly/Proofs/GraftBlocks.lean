import ModelAssembly.Proofs.Ungrafted
import ModelAssembly.Proofs.Walk
import ModelAssembly.Proofs.Safety
/-!
What assembling leaves alone: the grafts. Each stands in the assembled model as a block behind the
root, with its indices shifted and otherwise as it was when it was grafted.

Main statements: `get?_of_grafted` says what is left of a graft at the end of an assembly;
`grafts_stay_untouched` puts it together.
-/

namespace ModelAssembly

namespace Model

namespace Displaced

variable {k i : Nat} {n m : Model} {d : Description}

-- Where everything is a model's own and stays in it, links lead to what is its own after others have
-- come behind the root, too.
theorem isOwn_of_linked (h : Displaced k n m) (htree : n.OwnerTree) (hin : n.InRange)
    (hown : ∀ j e, n.get? j = some e → e.isOwn = true) (hd : m.get? i = some d)
    (hi : i = rootIndex ∨ k < i) :
    (∀ p, d.parent = some (.declared p) → ∃ e, m.get? p = some e ∧ e.isOwn = true) ∧
      ∀ o, d.owner = some o → ∃ e, m.get? o = some e ∧ e.isOwn = true := by
  have hdisplaced (j : Nat) (hj : j < n.size) :
      ∃ e, m.get? (displace k j) = some e ∧ e.isOwn = true := by
    have ⟨e, he⟩ := get?_of_lt_size hj
    have ⟨micro, hm⟩ := h.get? j e he
    exact ⟨_, hm, hown j e he⟩
  have ⟨j, hj, hji⟩ : ∃ j, j < n.size ∧ displace k j = i := by
    have hlt := lt_size_of_get? hd
    have hsize := h.size
    cases hi
    case inl h0 => exact ⟨rootIndex, n.size_pos, h0.symm⟩
    case inr hk =>
      have hne : i - k ≠ rootIndex := Nat.ne_of_gt (Nat.sub_pos_of_lt hk)
      exact ⟨i - k, by omega, by rw [displace_of_ne hne]; omega⟩
  have ⟨e, he⟩ := get?_of_lt_size hj
  have ⟨micro, hm⟩ := h.get? j e he
  cases hd.symm.trans (hji ▸ hm)
  refine ⟨fun p hp => ?parent, fun o ho => ?owner⟩
  case parent =>
    have ⟨link, hl, hp⟩ := Option.map_eq_some_iff.mp hp
    cases link
    case builtIn => cases hp
    case declared q =>
      cases hp
      exact hdisplaced q (hin.parent j q ⟨e, he, hl⟩)
  case owner =>
    have ⟨q, hq, ho⟩ := Option.map_eq_some_iff.mp ho
    have howned : j ∈ n.microOf q := (htree.micro q j).mpr ⟨e, he, hq⟩
    have hlt := htree.lt_of_mem_microOf howned
    exact ho ▸ hdisplaced q (Nat.lt_trans hlt.1 hlt.2)

end Displaced

end Model

namespace Assembler

open Model Description

variable {a : Assembler} {r : Request} {m : Model} {i : Nat} {d : Description}

namespace Run

variable (run : Run a r m)

include run

theorem isOwn_iff_index (hd : m.get? i = some d) :
    d.isOwn = true ↔ i = rootIndex ∨ run.base ≤ i := by
  by_cases h0 : i = rootIndex
  case pos =>
    have ⟨_, _, ho, _⟩ := run.root_final
    subst h0
    exact iff_of_true (root_eq_iff.mpr hd ▸ ho) (.inl rfl)
  case neg => simp only [run.extended.isOwn_iff h0 hd, h0, false_or]

-- Nothing happens to what was grafted after it was locked.
theorem get?_of_grafted {before after : List (String × Model)} {name : String} {g : Model}
    (he : r.grafts.entries = before ++ (name, g) :: after) (hd : g.get? i = some d)
    (hf : d.isFinalized = true) : m.get? (1 + sizes before + i) =
      some (d.shift (1 + sizes before) (if i = rootIndex then some rootIndex else none) name) :=
  run.operations.get?_of_finalized (run.toLinking.get?_graft he hd) hf

-- The root contains the grafts first.
theorem getElem?_micro_root {before after : List (String × Model)} {name : String} {g : Model}
    (he : r.grafts.entries = before ++ (name, g) :: after) :
    m.root.micro[before.length]? = some (1 + sizes before) := by
  have hroots : (graftRoots 1 r.grafts.entries)[before.length]? = some (1 + sizes before) := by
    rw [he]
    exact getElem?_graftRoots
  have hlen := (List.getElem?_eq_some_iff.mp hroots).1
  rw [run.extended.micro_root, run.root_model, List.append_assoc, List.getElem?_append_left hlen,
    hroots]

end Run

-- What a model is like next to that which is assembled without its grafts.
theorem isOwn_of_linked_own {n : Model} (run : Run a r m)
    (hn : (a.assemble r.ungrafted).result = .ok n) (h : Displaced r.graftedSize n m)
    (hd : m.get? i = some d) (ho : d.isOwn = true) :
    (∀ p, d.parent = some (.declared p) → ∃ e, m.get? p = some e ∧ e.isOwn = true) ∧
      ∀ o, d.owner = some o → ∃ e, m.get? o = some e ∧ e.isOwn = true := by
  have ⟨run₀⟩ := exists_run hn
  have hbuilt : n.Built := .assemble (fun _ hg => absurd hg List.not_mem_nil) hn
  have hin : n.InRange := run₀.extended.inRange run₀.inRange_ungrafted
  have hown (j : Nat) (e : Description) (he : n.get? j = some e) : e.isOwn = true := by
    refine (run₀.isOwn_iff_index he).mpr ?_
    rw [run₀.base_ungrafted]
    exact Nat.eq_zero_or_pos j
  refine h.isOwn_of_linked hbuilt.ownerTree hin hown hd ?_
  have hi := (run.isOwn_iff_index hd).mp ho
  rw [run.base_eq_graftedSize] at hi
  exact hi.imp_right fun hle => by omega

end Assembler

open Model

-- Assembling grafts a model as it is and leaves it alone from there on, and it makes no difference
-- to what is reported. A graft with a parent out of its range is left out: building the types can
-- abort for it, which it cannot without the graft.
theorem grafts_stay_untouched (a : Assembler) (r : Request) (m : Model)
    (hg : ∀ g ∈ r.grafts.entries, g.2.InRange ∧
      ∀ i d, g.2.get? i = some d → d.isFinalized = true)
    (h : (a.assemble r).result = .ok m) :
    (∀ before name g after, r.grafts.entries = before ++ (name, g) :: after →
      m.root.micro[before.length]? = some (1 + sizes before) ∧
      ∀ i d, g.get? i = some d → m.get? (1 + sizes before + i) = some { d with
        owner := if i = rootIndex then some rootIndex else d.owner.map (· + (1 + sizes before))
        micro := d.micro.map (· + (1 + sizes before))
        parent := d.parent.map fun
          | .declared p => .declared (p + (1 + sizes before))
          | .builtIn parent => .builtIn parent
        graftedFrom := some name }) ∧
    (∀ i d, m.get? i = some d →
      (d.isOwn = true ↔ i = rootIndex ∨ 1 + sizes r.grafts.entries ≤ i) ∧
      (d.isOwn = true →
        (∀ p, d.parent = some (.declared p) → ∃ e, m.get? p = some e ∧ e.isOwn = true) ∧
        ∀ o, d.owner = some o → ∃ e, m.get? o = some e ∧ e.isOwn = true)) ∧
    (a.assemble r.ungrafted).diagnostics = (a.assemble r).diagnostics ∧
      ∃ n, (a.assemble r.ungrafted).result = .ok n := by
  have ⟨run⟩ := Assembler.exists_run h
  have ⟨hreports, herrors, hresults⟩ := (Assembler.lockstep_assemble_ungrafted (a := a)
    (fun g hm => (hg g hm).1) fun g hm => (hg g hm).2).elim
  have ⟨n, hn⟩ : ∃ n, (a.assemble r.ungrafted).result = .ok n := by
    cases hr : (a.assemble r.ungrafted).result
    case ok n => exact ⟨n, rfl⟩
    case error e => cases h.symm.trans ((herrors e).mpr hr)
  have ⟨m', hm', hd⟩ := hresults n hn
  cases h.symm.trans hm'
  refine ⟨fun before name g after he => ?graft, fun i d hi => ?own, hreports.symm, n, hn⟩
  case graft =>
    refine ⟨run.getElem?_micro_root he, fun i d hi => ?_⟩
    have hf := (hg (name, g) (he ▸ List.mem_append_right _ List.mem_cons_self)).2 i d hi
    rw [run.get?_of_grafted he hi hf, Description.shift]
    congr 2
    split <;> rfl
  case own =>
    rw [← run.base_eq_sizes]
    exact ⟨run.isOwn_iff_index hi, Assembler.isOwn_of_linked_own run hn hd hi⟩

-- In the park, the pond comes behind the root and ahead of the bench and the scheduler.
theorem grafts_stay_untouched_of_park : ∃ pond m,
    (({} : Assembler).assemble pondRequest).result = .ok pond ∧
    (({} : Assembler).assemble (parkRequest pond)).result = .ok m ∧
    m.root.micro[0]? = some 1 ∧
    (∃ d e, pond.get? 1 = some d ∧ m.get? 2 = some e ∧ d.owner = some 0 ∧ e.owner = some 1 ∧
      e.members = d.members) ∧
    (∀ i d, m.get? i = some d → (d.isOwn = true ↔ i = 0 ∨ 4 ≤ i)) ∧
    (({} : Assembler).assemble (parkRequest pond).ungrafted).diagnostics =
      (({} : Assembler).assemble (parkRequest pond)).diagnostics := by
  have hfacts : (do
      let pond ← (({} : Assembler).assemble pondRequest).result
      let m ← (({} : Assembler).assemble (parkRequest pond)).result
      return (pond, m) : Except AssemblyError (Model × Model)).toOption.map
        (fun x => (x.1.size, (x.1.get? 1).map (·.owner))) = some (3, some (some 0)) := by
    decide +kernel
  have ⟨⟨pond, m⟩, hrun, hfacts⟩ := Option.map_eq_some_iff.mp hfacts
  have ⟨_, hpond, hrun⟩ := bind_eq_ok_iff.mp (toOption_eq_some_iff.mp hrun)
  have ⟨_, hm, hrun⟩ := bind_eq_ok_iff.mp hrun
  cases hrun
  have ⟨hsize, howner⟩ : pond.size = 3 ∧ (pond.get? 1).map (·.owner) = some (some 0) := by
    simpa using hfacts
  have hnone (g) (hg : g ∈ pondRequest.grafts.entries) : False := List.not_mem_nil hg
  have ⟨run⟩ := Assembler.exists_run hpond
  have hin : pond.InRange :=
    run.extended.inRange (run.inRange_model fun g hg => (hnone g hg).elim)
  have hfin (i : Nat) (d : Description) (hd : pond.get? i = some d) : d.isFinalized = true :=
    Assembler.isFinalized_of_assemble (fun g hg => (hnone g hg).elim) hpond i d hd
  have ⟨hgrafts, hown, hreports, _⟩ := grafts_stay_untouched {} (parkRequest pond) m
    (fun g hg => by cases List.mem_singleton.mp hg; exact ⟨hin, hfin⟩) hm
  have ⟨hmicro, hblock⟩ := hgrafts [] "water" pond [] rfl
  have ⟨d, hd, ho⟩ := Option.map_eq_some_iff.mp howner
  have hsizes : 1 + sizes (parkRequest pond).grafts.entries = 4 := by
    have hs : sizes (parkRequest pond).grafts.entries = pond.size + 0 := sizes_cons
    omega
  exact ⟨pond, m, hpond, hm, hmicro, ⟨d, _, hd, hblock 1 d hd, ho, by rw [ho]; rfl, rfl⟩,
    fun i d hd => hsizes ▸ (hown i d hd).1, hreports⟩

end ModelAssembly
