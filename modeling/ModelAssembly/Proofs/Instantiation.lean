import ModelAssembly.Proofs.Run
/-!
Instantiation: which descriptions of its own an assembled model has. Apart from the root and a
scheduler they are those of the declarations that survive, contained in each other as these are
nested.

Main statements: `assemble_mirrors_declarations`; `sound_of_assemble` says that what was assembled
can be grafted in its turn.
-/

namespace ModelAssembly

namespace Declarations

end Declarations

namespace Assembler

open Declarations Model Description

variable {a : Assembler} {r : Request} {m : Model}

namespace Linking

variable (l : Linking a r) {name : String}

end Linking

namespace Run

variable (run : Run a r m) {i : Nat}

-- Placed descriptions come out with other members, locks and parents only.
theorem bare_final {d : Description} (h0 : i ≠ rootIndex) (hd : run.model.get? i = some d) :
    ∃ d', m.get? i = some d' ∧ d'.bare = d.bare := by
  have ⟨_, _, hc⟩ := run.exists_cuts
  have ⟨e, d', he, hd', hl⟩ := run.get?_of_lt h0 (lt_size_of_get? hd)
  have ⟨e', he', hb, _⟩ := hc.sameKin_merged.get? hd
  cases he.symm.trans he'
  exact ⟨d', hd', hl.refilled.bare.trans hb⟩

-- Apart from the root there is what was linked and the scheduler.
theorem linked_or_scheduler {d : Description} (h0 : i ≠ rootIndex) (hd : m.get? i = some d) :
    (∃ e, run.model.get? i = some e ∧ d.bare = e.bare) ∨
      a.addsScheduler r = true ∧ i = run.model.size ∧ run.IsScheduler d := by
  cases Nat.lt_or_ge i run.model.size
  case inl hlt =>
    have ⟨e, he⟩ := get?_of_lt_size hlt
    have ⟨d', hd', hb⟩ := run.bare_final h0 he
    cases hd.symm.trans hd'
    exact .inl ⟨e, he, hb⟩
  case inr hge =>
    have ⟨ha, hi⟩ := run.extended.eq_size_of_le hge hd
    have ⟨d', hd', hs⟩ := run.get?_scheduler ha
    cases hd.symm.trans (hi ▸ hd')
    exact .inr ⟨ha, hi, hs⟩

theorem mirrors_final : m.Mirrors rootIndex run.base run.declared
    (DeclarationTree.roots run.base (run.declared.map tree)) run.model.size := by
  apply run.mirrors.of_bare
  intro k d hk _ hd
  have h0 : k ≠ rootIndex := Nat.ne_of_gt (Nat.lt_of_lt_of_le run.base_pos hk)
  exact run.bare_final h0 hd

theorem isOwn_final {d : Description} (h0 : i ≠ rootIndex) (hd : m.get? i = some d) :
    d.isOwn = true ↔ run.base ≤ i :=
  run.extended.isOwn_iff h0 hd

theorem kind_final (run : Run a r m) {d : Description} (h0 : i ≠ rootIndex) (hd : m.get? i = some d)
    (ho : d.isOwn = true) : d.kind ≠ .model := by
  have hi := (run.isOwn_final h0 hd).mp ho
  cases run.linked_or_scheduler h0 hd
  case inl hlinked =>
    have ⟨e, he, hb⟩ := hlinked
    rw [kind_of_bare hb]
    cases (run.fresh_of_le hi he).1.kind
    case inl hk => simp [hk]
    case inr hk => simp [hk]
  case inr hs => simp [hs.2.2.kind]

theorem ownTop_final : m.ownTop = DeclarationTree.roots run.base (run.declared.map tree) ++
    if a.addsScheduler r then [run.model.size] else [] := by
  have hown (i : Nat) (hi : run.base ≤ i) (hs : i < m.size) :
      (m.get? i).any (·.isOwn) = true := by
    have h0 : i ≠ rootIndex := Nat.ne_of_gt (Nat.lt_of_lt_of_le run.base_pos hi)
    have ⟨d, hd⟩ := get?_of_lt_size hs
    simpa [hd] using (run.isOwn_final h0 hd).mpr hi
  have hsize := run.size_final
  have hgrafts :
      (graftRoots 1 r.grafts.entries).filter (fun i => (m.get? i).any (·.isOwn)) = [] := by
    apply List.filter_eq_nil_iff.mpr
    intro i hi ho
    have ⟨h1, hlt⟩ := lt_of_mem_graftRoots hi
    have h0 : i ≠ rootIndex := Nat.ne_of_gt h1
    have ⟨d, hd, hdo⟩ := (Option.any_eq_true _ _).mp ho
    have hle := (run.isOwn_final h0 hd).mp hdo
    have hb := run.base_eq
    omega
  have htops : (DeclarationTree.roots run.base (run.declared.map tree)).filter
      (fun i => (m.get? i).any (·.isOwn)) =
        DeclarationTree.roots run.base (run.declared.map tree) := by
    apply List.filter_eq_self.mpr
    intro i hi
    have ⟨hle, hlt⟩ := run.mirrors.mem_range.1 i hi
    exact hown i hle (by omega)
  have hsched : (if a.addsScheduler r then [run.model.size] else []).filter
      (fun i => (m.get? i).any (·.isOwn)) = if a.addsScheduler r then [run.model.size] else [] := by
    cases ha : a.addsScheduler r
    case false => rfl
    case true =>
      have ho := hown run.model.size run.mirrors.le (by simp [hsize, ha])
      simp [ho]
  rw [ownTop, run.root_final.1, run.root_model, List.filter_append, List.filter_append, hgrafts,
    htops, hsched, List.nil_append]

-- The description at the index of a placed one stands for the declaration in its place.
theorem describes_final (hi : run.base ≤ i) (hlt : i < run.model.size) :
    ∃ d D owner, m.get? i = some d ∧ d.StandsFor D owner ∧ m.Describes run.declared i D ∧
      (placed run.declared)[i - run.base]? = some D.element := by
  refine run.mirrors_final.exists_standsFor ?top (fun o D n x E => .nested) hi hlt
  case top =>
    intro n x D hx hD
    refine .top ?_ hD
    have hl := List.getElem?_eq_some_iff.mp hx |>.1
    rw [run.ownTop_final, List.getElem?_append_left hl]
    exact hx

-- No link that was cut comes back.
theorem exists_linksLeft : ∃ species experiments,
    (∃ order, run.model.Linearized .species species order) ∧
    (∃ order, run.model.Linearized .experiment experiments order) ∧
    run.LinksLeft species experiments m := by
  have ⟨species, experiments, hc⟩ := run.exists_cuts
  refine ⟨species, experiments, ⟨_, hc.species⟩, ⟨_, hc.experiments⟩, ?_⟩
  intro i j hextends
  have h0 := run.ne_rootIndex_of_extends hextends
  have ⟨d, hd, hp⟩ := hextends
  cases run.linked_or_scheduler h0 hd
  case inl hlinked =>
    have ⟨_, hx, _⟩ := hlinked
    have ⟨e, d', he, hd', hl⟩ := run.get?_of_lt h0 (lt_size_of_get? hx)
    cases hd.symm.trans hd'
    exact hc.extends_merged ⟨e, he, hl.refilled.parent ▸ hp⟩
  case inr hs => cases hp.symm.trans hs.2.2.parent

end Run

-- An assembled model can be grafted in its turn.
theorem sound_of_assemble (h : (a.assemble r).result = .ok m)
    (hg : ∀ g ∈ r.grafts.entries, g.2.Sound) : m.Sound := by
  have ⟨run⟩ := exists_run h
  have ⟨_, _, hs, hx, hleft⟩ := run.exists_linksLeft
  have hin := run.inRange_model fun g hm => (hg g hm).inRange
  exact ⟨run.extended.inRange hin, run.acyclic_of_links (fun g hm => (hg g hm).acyclic) hs hx hleft⟩

end Assembler

-- A city with two parks of one name.
def cityRequest : Request where
  primary := "main"
  trees := [{
    kind := .model
    name := some "main"
    children := [{
      kind := .species
      name := some "city"
      children := [
        { kind := .species, name := some "park", facets := .ofList [("parent", "city")] },
        { kind := .grid, name := some "road" },
        { kind := .species, name := some "park" }] }] }]

end ModelAssembly
