import ModelAssembly.Proofs.GraftBlocks
import ModelAssembly.Proofs.Instantiation
import ModelAssembly.Proofs.NamedParents
/-!
Look-ups by name in an assembled model. Of several descriptions of its own that go by one name, a
search finds the first, while the type of that name is the last, which is also whom a child extends
that asks for the name. The name of a graft stands for that of its model, and for whatever this
denotes.

Main statements: `exists_type_final`, `isGreatest_of_parent` and `find?_final` say what each look-up
comes to, `lookups_by_name` when they agree; `graft_denotes` is about the names of grafts.
-/

namespace ModelAssembly

open Model Description

theorem exists_split_of_getElem? {α : Type} {l : List α} {k : Nat} {x : α} (h : l[k]? = some x) :
    ∃ before after, l = before ++ x :: after ∧ before.length = k := by
  have ⟨hl, hx⟩ := List.getElem?_eq_some_iff.mp h
  refine ⟨l.take k, l.drop (k + 1), ?_, List.length_take_of_le (Nat.le_of_lt hl)⟩
  rw [← hx, ← List.drop_eq_getElem_cons hl, List.take_append_drop]

namespace Model

variable {m m' : Model} {name : String} {p : Description → Bool} {i j : Nat}
  {R : Description → Description → Prop}

-- Names denote the same after changes to other things.
theorem Changed.bearers (hc : Changed R m m')
    (hr : ∀ d d', R d d' → d'.name = d.name ∧ p d' = p d) :
    m'.bearers name p = m.bearers name p := by
  ext i
  constructor
  case mp =>
    intro ⟨h0, d', hd', hn, hp⟩
    have ⟨d, hd, hR⟩ := hc.get?_rev hd'
    have ⟨hname, heq⟩ := hr d d' hR
    exact ⟨h0, d, hd, hname ▸ hn, heq ▸ hp⟩
  case mpr =>
    intro ⟨h0, d, hd, hn, hp⟩
    have ⟨d', hd', hR⟩ := hc.get? hd
    have ⟨hname, heq⟩ := hr d d' hR
    exact ⟨h0, d', hd', hname.trans hn, heq.trans hp⟩

-- A grafted description counts if there is no own one of its name, nor one behind it.
theorem denotes_iff_of_grafted {d : Description} (h0 : i ≠ rootIndex) (hd : m.get? i = some d)
    (ho : d.isOwn = false) : m.Denotes d.name i ↔ ∀ j e, j ≠ rootIndex → m.get? j = some e →
      e.name = d.name → e.isOwn = false ∧ j ≤ i := by
  have hno : i ∉ m.bearers d.name (·.isOwn) := by
    intro ⟨_, e, he, _, heo⟩
    cases hd.symm.trans he
    cases ho.symm.trans heo
  constructor
  case mp =>
    intro hi j e hj he hn
    have ⟨hempty, hlast⟩ := hi.resolve_left fun h => hno h.1
    refine ⟨?_, hlast.2 ⟨hj, e, he, hn, rfl⟩⟩
    cases heo : e.isOwn
    case false => rfl
    case true => exact absurd ⟨hj, e, he, hn, heo⟩ (Set.eq_empty_iff_forall_notMem.mp hempty j)
  case mpr =>
    intro hall
    refine .inr ⟨Set.eq_empty_iff_forall_notMem.mpr ?_, ⟨h0, d, hd, rfl, rfl⟩, ?_⟩
    · intro j ⟨hj, e, he, hn, heo⟩
      cases (hall j e hj he hn).1.symm.trans heo
    · intro j ⟨hj, e, he, hn, _⟩
      exact (hall j e hj he hn).2

end Model

namespace Assembler.Run

variable {a : Assembler} {r : Request} {m : Model} (run : Run a r m) {name : String} {i p : Nat}
  {d : Description}

include run

theorem grafts_final : m.grafts = run.model.grafts := by
  have ⟨_, _, hc⟩ := run.exists_cuts
  have ⟨_, hm⟩ := run.locked_final
  have ⟨f, ss, hs, _⟩ := run.exists_scheduled
  rw [hm.grafts, hs, ← hc.sameKin_merged.grafts]
  rfl

theorem grafts_scheduled : run.scheduled.grafts = m.grafts := by
  have ⟨_, hm⟩ := run.locked_final
  exact hm.grafts.symm

-- The types were built for what comes out.
theorem denotes_scheduled : run.scheduled.Denotes name i ↔ m.Denotes name i := by
  have ⟨types, hm⟩ := run.locked_final
  have hown : m.bearers name (·.isOwn) = run.scheduled.bearers name (·.isOwn) :=
    hm.bearers fun _ _ h => ⟨name_of_bare h.refilled.bare, isOwn_of_bare h.refilled.bare⟩
  have hall : (m.bearers name fun _ => true) = run.scheduled.bearers name fun _ => true :=
    hm.bearers fun _ _ h => ⟨name_of_bare h.refilled.bare, rfl⟩
  rw [Denotes, Denotes, hown, hall]

theorem types_final : m.types = run.typed.types :=
  (locked_of_finalizeAll run.finalized_eq).types

theorem exists_type_final (hi : m.Denotes name i) :
    ∃ type, m.types.types.get? name = some type ∧ type.name = name ∧ type.description = i := by
  rw [run.types_final]
  exact exists_type_of_built run.typed_eq (run.denotes_scheduled.mpr hi)

theorem bearers_own_final :
    (m.bearers name fun d => !d.isModel && d.isOwn) = m.bearers name (·.isOwn) := by
  ext i
  constructor
  case mp =>
    intro ⟨h0, d, hd, hn, hp⟩
    exact ⟨h0, d, hd, hn, (Bool.and_eq_true _ _ ▸ hp).2⟩
  case mpr =>
    intro ⟨h0, d, hd, hn, ho⟩
    have hk : d.isModel = false := by simpa [isModel] using run.kind_final h0 hd ho
    exact ⟨h0, d, hd, hn, by simpa [hk] using ho⟩

-- All but the scheduler were there when parents were linked.
theorem bearers_own_linked : run.model.bearers name (·.isOwn) =
    m.bearers name (·.isOwn) \ {i | a.addsScheduler r = true ∧ i + 1 = m.size} := by
  have hsize := run.size_final
  ext i
  constructor
  case mp =>
    intro ⟨h0, d, hd, hn, ho⟩
    have hlt := lt_size_of_get? hd
    have ⟨d', hd', hb⟩ := run.bare_final h0 hd
    refine ⟨⟨h0, d', hd', (name_of_bare hb).trans hn, (isOwn_of_bare hb).trans ho⟩, ?_⟩
    intro ⟨ha, hi⟩
    simp only [ha, if_true] at hsize
    omega
  case mpr =>
    intro ⟨⟨h0, d, hd, hn, ho⟩, hno⟩
    cases run.linked_or_scheduler h0 hd
    case inl hlinked =>
      have ⟨e, he, hb⟩ := hlinked
      exact ⟨h0, e, he, (name_of_bare hb).symm.trans hn, (isOwn_of_bare hb).symm.trans ho⟩
    case inr hs =>
      have ⟨ha, hi, _⟩ := hs
      simp only [ha, if_true] at hsize
      exact absurd ⟨ha, by omega⟩ hno

-- Links that are left are those to the last description of the name that is asked for.
theorem isGreatest_of_parent (hd : m.get? i = some d) (ho : d.isOwn = true)
    (hf : d.facets.get? Keyword.parent = some name) (hp : d.parent = some (.declared p)) :
    IsGreatest (run.model.bearers name (·.isOwn)) p := by
  have h0 := run.ne_rootIndex_of_extends ⟨d, hd, hp⟩
  have ⟨_, _, _, _, hleft⟩ := run.exists_linksLeft
  have ⟨⟨e, he, hpe⟩, _⟩ := hleft i p ⟨d, hd, hp⟩
  have ⟨d', hd', hb⟩ := run.bare_final h0 he
  cases hd.symm.trans hd'
  have hi := (run.isOwn_final h0 hd).mp ho
  exact ((run.parent_eq_declared_iff he hi (facets_of_bare hb ▸ hf)).mp hpe).1

theorem find?_final (hn : (m.bearers name (·.isOwn)).Nonempty) :
    m.find? name = some i ↔ IsLeast (m.bearers name (·.isOwn)) i := by
  rw [find?_eq_some_iff, run.bearers_own_final]
  simp [hn.ne_empty]

theorem exists_graft_final (hg : m.grafts.get? name = some i) :
    ∃ before g after, r.grafts.entries = before ++ (name, g) :: after ∧ i = 1 + sizes before := by
  rw [run.grafts_final, run.grafts_model] at hg
  have ⟨k, hk⟩ := List.mem_iff_getElem?.mp (OrderedMap.mem_of_get?_ofList hg)
  have ⟨hname, hroot⟩ := List.getElem?_zip_eq_some.mp hk
  rw [List.getElem?_map] at hname
  have ⟨e, he, hen⟩ := Option.map_eq_some_iff.mp hname
  have ⟨before, after, hsplit, hlen⟩ := exists_split_of_getElem? he
  have hk : (graftRoots 1 r.grafts.entries)[k]? = some (1 + sizes before) := by
    rw [hsplit, ← hlen]
    exact getElem?_graftRoots
  have ⟨_, g⟩ := e
  cases hen
  exact ⟨before, g, after, hsplit, Option.some.inj (hroot.symm.trans hk)⟩

-- The root of a graft keeps the name of its model.
theorem get?_graft_final {before after : List (String × Model)} {g : Model}
    (he : r.grafts.entries = before ++ (name, g) :: after) :
    ∃ d, m.get? (1 + sizes before) = some d ∧ d.name = g.name ∧ d.graftedFrom = some name := by
  have hd := run.get?_graft he (get?_rootIndex g)
  have ⟨d, hd, hb⟩ := run.bare_final (by simp [rootIndex]) hd
  have hn : d.name = (g.root.shift (1 + sizes before) _ name).name := name_of_bare hb
  have hfrom := congrArg Description.graftedFrom hb
  exact ⟨d, hd, hn, hfrom⟩

-- A graft goes by the type of its root's name.
theorem exists_type_of_graft_final (h0 : i ≠ rootIndex) (hg : m.grafts.get? name = some i)
    (hd : m.get? i = some d) : ∃ type, m.types.get? name = some type ∧
      m.types.types.get? d.name = some type ∧ type.name = d.name ∧
      m.Denotes d.name type.description := by
  have ⟨j, hj⟩ := exists_denotes ⟨h0, d, hd, rfl, rfl⟩
  have ⟨type, htype, hname, hdesc⟩ := run.exists_type_final hj
  have ⟨_, hm⟩ := run.locked_final
  have ⟨e, he, hl⟩ := hm.get?_rev hd
  have hget := get?_typeTable_of_graft run.typed_eq (run.grafts_scheduled ▸ hg) he
  rw [← run.types_final, ← name_of_bare hl.refilled.bare, htype] at hget
  exact ⟨type, hget, htype, hname, hdesc ▸ hj⟩

end Assembler.Run

-- An own name leads a search to the first description, and the table of types and, but for the
-- scheduler, the links of children to the last. So the look-ups agree exactly on names that are
-- given only once.
theorem lookups_by_name {a : Assembler} {r : Request} {m : Model} {name : String}
    (h : (a.assemble r).result = .ok m) (hn : (m.bearers name (·.isOwn)).Nonempty)
    (hg : m.grafts.get? name = none) :
    let own := m.bearers name (·.isOwn)
    let scheduler := {i | a.addsScheduler r = true ∧ i + 1 = m.size}
    (∃ i, m.find? name = some i ∧ IsLeast own i) ∧
    (∃ type, m.types.get? name = some type ∧ type.name = name ∧ IsGreatest own type.description) ∧
    (m.find? name = (m.types.get? name).map (·.description) ↔ own.Subsingleton) ∧
    ∀ i d p, m.get? i = some d → d.isOwn = true → d.facets.get? Keyword.parent = some name →
      d.parent = some (.declared p) → IsGreatest (own \ scheduler) p := by
  intro own scheduler
  have ⟨run⟩ := Assembler.exists_run h
  have ⟨_, hi⟩ := hn
  have ⟨first, hfirst⟩ := exists_isLeast_bearers hi
  have ⟨last, hlast⟩ := exists_isGreatest_bearers hi
  have hfind : m.find? name = some first := (run.find?_final hn).mpr hfirst
  have ⟨type, htype, hname, hd⟩ := run.exists_type_final (.inl hlast)
  have hget : m.types.get? name = some type := by
    rw [run.types_final, get?_typeTable_of_not_graft run.typed_eq (run.grafts_scheduled ▸ hg),
      ← run.types_final, htype]
  refine ⟨⟨first, hfind, hfirst⟩, ⟨type, hget, hname, hd ▸ hlast⟩, ?agree, ?links⟩
  case agree =>
    rw [hfind, hget, Option.map_some, Option.some.injEq, hd]
    constructor
    case mp =>
      intro he i hi j hj
      have hall (k : Nat) (hk : k ∈ own) : k = first :=
        Nat.le_antisymm (he ▸ hlast.2 hk) (hfirst.2 hk)
      exact (hall i hi).trans (hall j hj).symm
    case mpr => exact fun hs => hs hfirst.1 hlast.1
  case links =>
    intro i d p hd ho hf hp
    exact run.bearers_own_linked ▸ run.isGreatest_of_parent hd ho hf hp

-- A town in which two species each have a road of their own.
def townRequest : Request where
  primary := "town"
  trees := [{
    kind := .model
    name := some "town"
    children := [
      { kind := .species, name := some "city", children := [
        { kind := .species, name := some "road" }] },
      { kind := .species, name := some "park", children := [
        { kind := .species, name := some "road" }] },
      { kind := .species, name := some "lane", facets := .ofList [("parent", "road")] }] }]

theorem lookups_by_name_in_town : ∃ m, (({} : Assembler).assemble townRequest).result = .ok m ∧
    2 ∈ m.bearers "road" (·.isOwn) ∧ m.grafts.get? "road" = none ∧
    ¬ (m.bearers "road" (·.isOwn)).Subsingleton ∧
    ∃ d, m.get? 5 = some d ∧ d.isOwn = true ∧ d.facets.get? Keyword.parent = some "road" ∧
      d.parent = some (.declared 4) ∧
      IsGreatest (m.bearers "road" (·.isOwn) \
        {i | ({} : Assembler).addsScheduler townRequest = true ∧ i + 1 = m.size}) 4 := by
  have hfacts : (({} : Assembler).assemble townRequest).result.toOption.any (fun m =>
      (m.get? 2).any (fun d => d.name = "road" ∧ d.isOwn = true) && m.find? "road" = some 2 &&
      (m.types.get? "road").any (fun type => type.description = 4) &&
      (m.grafts.get? "road").isNone &&
      (m.get? 5).any (fun d => d.isOwn = true ∧ d.facets.get? Keyword.parent = some "road" ∧
        d.parent = some (.declared 4))) = true := by
    decide +kernel
  simp only [Option.any_eq_true, Bool.and_eq_true, decide_eq_true_eq, Option.isNone_iff_eq_none,
    toOption_eq_some_iff] at hfacts
  obtain ⟨m, hm, ⟨⟨⟨⟨⟨e, he, hn, heo⟩, hfind⟩, type, htype, hdesc⟩, hg⟩, d, hd, ho, hf, hp⟩⟩ :=
    hfacts
  have hroad : 2 ∈ m.bearers "road" (·.isOwn) := ⟨by decide, e, he, hn, heo⟩
  obtain ⟨_, _, hagree, hlinks⟩ := lookups_by_name hm ⟨2, hroad⟩ hg
  refine ⟨m, hm, hroad, hg, fun hs => ?_, d, hd, ho, hf, hp, hlinks 5 d 4 hd ho hf hp⟩
  have hsame := hagree.mpr hs
  simp [hfind, htype, hdesc] at hsame

-- A search for the road in town comes to another one than its type.
theorem lookups_differ_in_town : ∃ m, (({} : Assembler).assemble townRequest).result = .ok m ∧
    (m.bearers "road" (·.isOwn)).Nonempty ∧ m.grafts.get? "road" = none ∧
    m.find? "road" = some 2 ∧ (m.types.get? "road").map (·.description) = some 4 := by
  have hfacts : (({} : Assembler).assemble townRequest).result.toOption.any (fun m =>
      (m.get? 2).any (fun d => d.name = "road" ∧ d.isOwn = true) &&
      (m.grafts.get? "road").isNone && m.find? "road" = some 2 &&
      (m.types.get? "road").map (·.description) = some 4) = true := by
    decide +kernel
  simp only [Option.any_eq_true, Bool.and_eq_true, decide_eq_true_eq, Option.isNone_iff_eq_none,
    toOption_eq_some_iff] at hfacts
  obtain ⟨m, hm, ⟨⟨⟨e, he, hn, heo⟩, hg⟩, hfind⟩, htype⟩ := hfacts
  exact ⟨m, hm, ⟨2, by decide, e, he, hn, heo⟩, hg, hfind, htype⟩

-- The name of a graft is another name for the type of its model. So it stands for the graft itself
-- as long as nothing of the model's own and nothing behind the graft goes by the name of its model.
theorem graft_denotes {a : Assembler} {r : Request} {m : Model} {name : String} {root : Nat}
    (h : (a.assemble r).result = .ok m) (hg : m.grafts.get? name = some root) :
    ∃ before g after, r.grafts.entries = before ++ (name, g) :: after ∧ root = 1 + sizes before ∧
      (∃ d, m.get? root = some d ∧ d.name = g.name ∧ d.graftedFrom = some name) ∧
      (∃ type, m.types.get? name = some type ∧ m.types.types.get? g.name = some type ∧
        type.name = g.name ∧ m.Denotes g.name type.description) ∧
      ((m.types.get? name).map (·.description) = some root ↔ ∀ i d, i ≠ rootIndex →
        m.get? i = some d → d.name = g.name → d.isOwn = false ∧ i ≤ root) := by
  obtain ⟨run⟩ := Assembler.exists_run h
  obtain ⟨before, g, after, he, hroot⟩ := run.exists_graft_final hg
  obtain ⟨d, hd, hn, hfrom⟩ := run.get?_graft_final he
  have h0 : 1 + sizes before ≠ rootIndex := by simp [rootIndex]
  have ho : d.isOwn = false := by simp [isOwn, hfrom]
  obtain ⟨type, hget, htype, hname, hdenotes⟩ := run.exists_type_of_graft_final h0 (hroot ▸ hg) hd
  refine ⟨before, g, after, he, hroot, ⟨d, hroot ▸ hd, hn, hfrom⟩,
    ⟨type, hget, hn ▸ htype, hname.trans hn, hn ▸ hdenotes⟩, ?_⟩
  rw [hget, Option.map_some, Option.some.injEq, hroot, ← hn, ← denotes_iff_of_grafted h0 hd ho]
  exact ⟨fun hi => hi ▸ hdenotes, hdenotes.unique⟩

def reserveRequest (species : List Element) : Request where
  primary := "reserve"
  trees := [{ kind := .model, name := some "reserve", children := species }]

-- A valley with a reserve at either end.
def valleyRequest (north south : Model) : Request where
  primary := "valley"
  trees := [{ kind := .model, name := some "valley" }]
  grafts := .ofList [("north", north), ("south", south)]

def deer : Element := { kind := .species, name := some "deer" }

-- What assembling the reserves and the valley comes to.
theorem exists_valley {p : Model → Bool} (h : (do
    let north ← (({} : Assembler).assemble (reserveRequest [])).result
    let south ← (({} : Assembler).assemble (reserveRequest [deer])).result
    (({} : Assembler).assemble (valleyRequest north south)).result :
      Except AssemblyError Model).toOption.any p = true) :
    ∃ north south m, (({} : Assembler).assemble (reserveRequest [])).result = .ok north ∧
      (({} : Assembler).assemble (reserveRequest [deer])).result = .ok south ∧
      (({} : Assembler).assemble (valleyRequest north south)).result = .ok m ∧ p m = true := by
  have ⟨m, hm, hp⟩ := (Option.any_eq_true _ _).mp h
  have ⟨north, hnorth, hm⟩ := bind_eq_ok_iff.mp (toOption_eq_some_iff.mp hm)
  have ⟨south, hsouth, hm⟩ := bind_eq_ok_iff.mp hm
  exact ⟨north, south, m, hnorth, hsouth, hm, hp⟩

theorem graft_denotes_in_valley : ∃ north south m,
    (({} : Assembler).assemble (reserveRequest [])).result = .ok north ∧
    (({} : Assembler).assemble (reserveRequest [deer])).result = .ok south ∧
    (({} : Assembler).assemble (valleyRequest north south)).result = .ok m ∧
    m.grafts.get? "south" = some 2 ∧ (m.types.get? "south").map (·.description) = some 2 ∧
    ∀ i d, i ≠ rootIndex → m.get? i = some d → d.name = "reserve_model" → i ≤ 2 := by
  obtain ⟨north, south, m, hnorth, hsouth, hm, hfacts⟩ := exists_valley (p := fun m =>
      m.grafts.get? "south" = some 2 && (m.get? 2).any (·.name = "reserve_model") &&
      (m.types.get? "south").map (·.description) = some 2) (by decide +kernel)
  simp only [Bool.and_eq_true, Option.any_eq_true, decide_eq_true_eq] at hfacts
  obtain ⟨⟨hg, e, he, hn⟩, htype⟩ := hfacts
  obtain ⟨_, g, _, _, _, ⟨d, hd, hdn, _⟩, _, hall⟩ := graft_denotes hm hg
  cases he.symm.trans hd
  refine ⟨north, south, m, hnorth, hsouth, hm, hg, htype, fun i d h0 hi hin => ?_⟩
  exact (hall.mp htype i d h0 hi (hin.trans (hn.symm.trans hdn))).2

-- Both ends of the valley come to the reserve in the south.
theorem graft_missed_in_valley : ∃ north south m,
    (({} : Assembler).assemble (reserveRequest [])).result = .ok north ∧
    (({} : Assembler).assemble (reserveRequest [deer])).result = .ok south ∧
    (({} : Assembler).assemble (valleyRequest north south)).result = .ok m ∧
    m.grafts.get? "north" = some 1 ∧ (m.types.get? "north").map (·.description) = some 2 := by
  have ⟨north, south, m, hnorth, hsouth, hm, hfacts⟩ := exists_valley (p := fun m =>
      m.grafts.get? "north" = some 1 &&
      (m.types.get? "north").map (·.description) = some 2) (by decide +kernel)
  simp only [Bool.and_eq_true, decide_eq_true_eq] at hfacts
  exact ⟨north, south, m, hnorth, hsouth, hm, hfacts⟩

end ModelAssembly
