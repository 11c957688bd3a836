import ModelAssembly.Proofs.Lookups
/-!
The order of types. The table lists each name where it first comes up in the model, whichever
description the name stands for in the end. Where an own description takes the place of a grafted
one or of an earlier own one, the order of the types is not that of their descriptions any more.

Main statements: `keys_types_of_declared` says in which order names are listed,
`pairwise_toList_iff` when that is the order of the descriptions; `types_by_first_bearer` puts them
together.
-/

namespace ModelAssembly

section

variable {α : Type} {f : α → String} {g : α → Nat} {l : List α}

-- In a list in the order of `g`, of two values of `f` the one that comes up first has a bearer
-- before all bearers of the other.
theorem pairwise_eraseDups_map (h : l.Pairwise (g · < g ·)) :
    (l.map f).eraseDups.Pairwise fun a b => ∃ x ∈ l, f x = a ∧ ∀ y ∈ l, f y = b → g x < g y := by
  induction l using List.reverseRecOn
  case nil => simp
  case append_singleton l z hi =>
    have ⟨hl, _, hz⟩ := List.pairwise_append.mp h
    have hlast (x : α) (hx : x ∈ l) : g x < g z := hz x hx z (List.mem_singleton.mpr rfl)
    have hold : (l.map f).eraseDups.Pairwise fun a b =>
        ∃ x ∈ l ++ [z], f x = a ∧ ∀ y ∈ l ++ [z], f y = b → g x < g y := by
      refine (hi hl).imp fun ⟨x, hx, hfx, hlt⟩ => ?_
      refine ⟨x, List.mem_append_left _ hx, hfx, List.forall_mem_append.mpr ⟨hlt, ?_⟩⟩
      exact List.forall_mem_singleton.mpr fun _ => hlast x hx
    rw [List.map_append, List.map_singleton, OrderedMap.eraseDups_concat]
    split
    case isTrue => exact hold
    case isFalse hnew =>
      refine List.pairwise_append.mpr ⟨hold, List.pairwise_singleton .., fun a ha b hb => ?_⟩
      cases List.mem_singleton.mp hb
      have ⟨x, hx, hfx⟩ := List.mem_map.mp (List.mem_eraseDups.mp ha)
      refine ⟨x, List.mem_append_left _ hx, hfx, List.forall_mem_append.mpr ⟨?_, ?_⟩⟩
      · exact fun y hy hfy => absurd (hfy ▸ List.mem_map_of_mem hy) hnew
      · exact List.forall_mem_singleton.mpr fun _ => hlast x hx

end

namespace Model

variable {m m' : Model} {t : TypeTable} {i : Nat} {d : Description} {name : String}
  {type : SpeciesType}

-- The name that a link gives: a built-in parent is named by the link itself.
def linkName (m : Model) : ParentLink → Option String
  | .declared i => (m.get? i).map (·.name)
  | .builtIn name => some name

theorem parentTypeName_eq_ok_iff {parent : Option String} : m.parentTypeName d = .ok parent ↔
    parent = d.parent.bind m.linkName ∧ ∀ j, d.parent = some (.declared j) → j < m.size := by
  unfold parentTypeName
  cases d.parent
  case none => simp [eq_comm]
  case some link =>
    cases link
    case builtIn name => simp [linkName, eq_comm]
    case declared j =>
      cases hj : m.get? j
      case none =>
        have hle : ¬ j < m.size := fun hlt => by
          have ⟨_, he⟩ := get?_of_lt_size hlt
          cases hj.symm.trans he
        simp [get, hj, hle, bind, Except.bind]
      case some e =>
        have hlt := lt_size_of_get? hj
        simp [get, hj, hlt, linkName, bind, Except.bind, pure, Except.pure, eq_comm]

-- A parent goes by the name that leads to it, if built-in ones are registered under their names.
theorem parentName_eq_bind_linkName (hd : m.get? i = some d) (hb : ∀ name,
    d.parent = some (.builtIn name) → ∃ b, m.registry.lookup name = some b ∧ b.name = name) :
    m.parentName i = d.parent.bind m.linkName := by
  simp only [parentName, parentOf, hd, Option.bind_some]
  cases hp : d.parent
  case none => rfl
  case some link =>
    cases link
    case declared j => rfl
    case builtIn name =>
      obtain ⟨b, hb, hn⟩ := hb name hp
      simp [resolve, linkName, hb, hn]

-- The table lists names in the order in which they come up.
theorem keys_types_of_declared (h : m.declaredTypes = .ok t) :
    t.types.keys = (m.nonRoot.map (·.1.name)).eraseDups := by
  refine foldlM_eq_ok_rule
    (P := fun pre t => t.types.keys = (pre.map (·.1.name)).eraseDups) h rfl ?_
  intro pre x post t t' _ hkeys hx
  rw [List.map_append, List.map_singleton, OrderedMap.eraseDups_concat, ← hkeys]
  have hmem : x.1.name ∈ pre.map (·.1.name) ↔ x.1.name ∈ t.types.keys := by
    rw [hkeys, List.mem_eraseDups]
  simp only [hmem]
  cases hs : m.shadows t x.1
  case true =>
    simp only [hs, if_true] at hx
    cases hx
    -- What shadows a description has its name.
    have hlisted : x.1.name ∈ t.types.keys := by
      rw [OrderedMap.mem_keys_iff, OrderedMap.contains]
      have hany := (Bool.and_eq_true _ _ ▸ hs).2
      cases hget : t.types.get? x.1.name
      case none => simp [hget] at hany
      case some => rfl
    rw [if_pos hlisted]
  case false =>
    simp only [hs, Bool.false_eq_true, if_false] at hx
    obtain ⟨parent, _, hx⟩ := bind_eq_ok_iff.mp hx
    cases hx
    exact OrderedMap.keys_insert ..

theorem keyedBy_types_of_declared (h : m.declaredTypes = .ok t) : t.types.KeyedBy (·.name) :=
  fun _ _ hk => ((get?_types_of_declared h).mp hk).1

theorem Denotes.mem_bearers (h : m.Denotes name i) : i ∈ m.bearers name fun _ => true := by
  cases h
  case inl h =>
    have ⟨h0, d, hd, hn, _⟩ := h.1
    exact ⟨h0, d, hd, hn, rfl⟩
  case inr h => exact h.2.1

-- A name that comes up at `first` and stands for the description at `i`.
structure Settles (m : Model) (name : String) (first i : Nat) : Prop where
  first : IsLeast (m.bearers name fun _ => true) first
  denotes : m.Denotes name i

section

variable (h : m.declaredTypes = .ok t)

include h

theorem exists_settles_of_mem (hm : type ∈ t.toList) :
    ∃ first, m.Settles type.name first type.description := by
  have ⟨k, hk⟩ := OrderedMap.mem_values_iff.mp hm
  have ⟨hn, hd, _⟩ := (get?_types_of_declared h).mp hk
  have ⟨first, hf⟩ := exists_isLeast_bearers hd.mem_bearers
  exact ⟨first, hn ▸ hf, hn ▸ hd⟩

theorem exists_mem_of_denotes (hd : m.Denotes name i) :
    ∃ type ∈ t.toList, type.name = name ∧ type.description = i := by
  have ⟨type, htype, hn, hi⟩ := exists_type_of_declared h hd
  exact ⟨type, OrderedMap.mem_values_iff.mpr ⟨name, htype⟩, hn, hi⟩

-- Types come in the order in which their names come up.
theorem pairwise_first_toList : t.toList.Pairwise fun type type' => ∀ first first',
    IsLeast (m.bearers type.name fun _ => true) first →
    IsLeast (m.bearers type'.name fun _ => true) first' → first < first' := by
  have hkeys : t.toList.map (·.name) = (m.nonRoot.map (·.1.name)).eraseDups :=
    (keyedBy_types_of_declared h).map_values.trans (keys_types_of_declared h)
  have hp := pairwise_eraseDups_map (f := fun x => x.1.name) m.pairwise_nonRoot
  rw [← hkeys] at hp
  refine (List.pairwise_map.mp hp).imp fun ⟨x, hx, hn, hlt⟩ first first' hf hf' => ?_
  have hle : first ≤ x.2 := hf.2 (Model.mem_bearers.mpr ⟨x.1, hx, by simp [hn]⟩)
  have ⟨e, he, hn'⟩ := Model.mem_bearers.mp hf'.1
  exact Nat.lt_of_le_of_lt hle (hlt (e, first') he (by simpa using hn'))

-- So they come in the order of their descriptions if names come up in the order of what they stand
-- for, and not otherwise.
theorem pairwise_toList_iff : (t.toList.map (·.description)).Pairwise (· < ·) ↔
    ∀ name name' first first' i i', m.Settles name first i → m.Settles name' first' i' →
      first < first' → i < i' := by
  have hfirst := pairwise_first_toList h
  rw [List.pairwise_map]
  constructor
  case mp =>
    intro hs name name' first first' i i' hn hn' hlt
    obtain ⟨type, hm, rfl, rfl⟩ := exists_mem_of_denotes h hn.denotes
    obtain ⟨type', hm', rfl, rfl⟩ := exists_mem_of_denotes h hn'.denotes
    obtain ⟨k, hk, rfl⟩ := List.mem_iff_getElem.mp hm
    obtain ⟨k', hk', rfl⟩ := List.mem_iff_getElem.mp hm'
    rcases Nat.lt_trichotomy k k' with hkk | rfl | hkk
    · exact List.pairwise_iff_getElem.mp hs k k' hk hk' hkk
    · exact absurd (hn.first.unique hn'.first) (Nat.ne_of_lt hlt)
    · have hgt := List.pairwise_iff_getElem.mp hfirst k' k hk' hk hkk _ _ hn'.first hn.first
      exact absurd hlt (Nat.lt_asymm hgt)
  case mpr =>
    intro hs
    refine hfirst.imp_of_mem fun {type type'} hm hm' hlt => ?_
    have ⟨first, hn⟩ := exists_settles_of_mem h hm
    have ⟨first', hn'⟩ := exists_settles_of_mem h hm'
    exact hs _ _ _ _ _ _ hn hn' (hlt _ _ hn.first hn'.first)

-- In particular if there is one description to each name.
theorem pairwise_toList_of_distinct (hn : ∀ i j d e, i ≠ rootIndex → j ≠ rootIndex →
    m.get? i = some d → m.get? j = some e → d.name = e.name → i = j) :
    (t.toList.map (·.description)).Pairwise (· < ·) := by
  have hsame (name : String) (first i : Nat) (hs : m.Settles name first i) : first = i := by
    have ⟨h0, d, hd, hdn, _⟩ := hs.first.1
    have ⟨h0', e, he, hen, _⟩ := hs.denotes.mem_bearers
    exact hn first i d e h0 h0' hd he (hdn.trans hen.symm)
  refine (pairwise_toList_iff h).mpr fun name name' first first' i i' hs hs' hlt => ?_
  exact hsame _ _ _ hs ▸ hsame _ _ _ hs' ▸ hlt

theorem toList_of_built (hb : m.buildTypes = .ok m') : m'.types.toList = t.toList := by
  have ⟨u, hu, htypes, _⟩ := exists_declaredTypes hb
  cases h.symm.trans hu
  exact congrArg OrderedMap.values htypes

end

-- The types of a model: one for each name of a description other than the root, in the order in
-- which the names come up, each with the description that the name denotes and the name of its
-- parent. They come in the order of their descriptions exactly if no name that comes up later than
-- another denotes an earlier description.
theorem types_by_first_bearer (m : Model) :
    ((∀ i j, m.Extends i j → j < m.size) → ∃ t, m.declaredTypes = .ok t) ∧
    ∀ t, m.declaredTypes = .ok t →
      (∀ m', m.buildTypes = .ok m' → m'.types.toList = t.toList) ∧
      t.toList.map (·.name) = (m.nonRoot.map (·.1.name)).eraseDups ∧
      (∀ type ∈ t.toList, m.Denotes type.name type.description ∧
        ∃ d, m.get? type.description = some d ∧ d.name = type.name ∧
          type.parent = d.parent.bind m.linkName ∧
          ((∀ name, d.parent = some (.builtIn name) →
              ∃ b, m.registry.lookup name = some b ∧ b.name = name) →
            type.parent = m.parentName type.description)) ∧
      ((t.toList.map (·.description)).Pairwise (· < ·) ↔
        ∀ name name' first first' i i', m.Settles name first i → m.Settles name' first' i' →
          first < first' → i < i') ∧
      ((∀ i j d e, i ≠ rootIndex → j ≠ rootIndex → m.get? i = some d → m.get? j = some e →
          d.name = e.name → i = j) →
        (t.toList.map (·.description)).Pairwise (· < ·)) := by
  refine ⟨exists_declaredTypes_eq_ok, fun t h => ⟨fun m' => toList_of_built h, ?names, ?entries,
    pairwise_toList_iff h, pairwise_toList_of_distinct h⟩⟩
  case names => exact (keyedBy_types_of_declared h).map_values.trans (keys_types_of_declared h)
  case entries =>
    intro type hm
    have ⟨k, hk⟩ := OrderedMap.mem_values_iff.mp hm
    have ⟨hn, hdenotes, d, hd, hparent⟩ := (get?_types_of_declared h).mp hk
    have ⟨_, e, he, hen, _⟩ := hdenotes.mem_bearers
    cases hd.symm.trans he
    have hlink := (parentTypeName_eq_ok_iff.mp hparent).1
    exact ⟨hn ▸ hdenotes, d, hd, hen.trans hn.symm, hlink,
      fun hb => hlink.trans (parentName_eq_bind_linkName hd hb).symm⟩

-- No two descriptions in the pond have one name.
theorem types_by_first_bearer_in_pond : ∃ m t,
    (({} : Assembler).assemble pondRequest).result = .ok m ∧ m.declaredTypes = .ok t ∧
    t.toList.map (·.name) = ["duck", "duckling"] ∧
    (t.toList.map (·.description)).Pairwise (· < ·) ∧
    ∀ type ∈ t.toList, type.parent = m.parentName type.description := by
  have hfacts : (({} : Assembler).assemble pondRequest).result.toOption.any (fun m =>
      m.nonRoot.map (fun x => (x.1.name, x.1.parent)) =
        [("duck", some (.builtIn "agent")), ("duckling", some (.builtIn "agent"))] ∧
      (m.registry.lookup "agent").map (·.name) = some "agent") = true := by
    decide +kernel
  simp only [Option.any_eq_true, decide_eq_true_eq, toOption_eq_some_iff] at hfacts
  obtain ⟨m, hm, hducks, hagent⟩ := hfacts
  have hnames : m.nonRoot.map (·.1.name) = ["duck", "duckling"] := by
    simpa [Function.comp_def] using congrArg (List.map Prod.fst) hducks
  have hdistinct (i j : Nat) (d e : Description) (hi : i ≠ rootIndex) (hj : j ≠ rootIndex)
      (hd : m.get? i = some d) (he : m.get? j = some e) (hn : d.name = e.name) : i = j := by
    have hnodup : (m.nonRoot.map (·.1.name)).Nodup := hnames ▸ by decide
    exact congrArg Prod.snd (List.inj_on_of_nodup_map hnodup (mem_nonRoot.mpr ⟨hi, hd⟩)
      (mem_nonRoot.mpr ⟨hj, he⟩) hn)
  have hparent (i : Nat) (d : Description) (hi : i ≠ rootIndex) (hd : m.get? i = some d) :
      d.parent = some (.builtIn "agent") := by
    have hx := List.mem_map_of_mem (f := fun x => (x.1.name, x.1.parent))
      (mem_nonRoot.mpr ⟨hi, hd⟩)
    rw [hducks] at hx
    grind
  have ⟨b, hb, hbn⟩ := Option.map_eq_some_iff.mp hagent
  have hgraftable : Bundle.Graftable m :=
    Bundle.graftable_of_assemble (fun _ hg => absurd hg List.not_mem_nil) hm
  have ⟨hexists, hall⟩ := types_by_first_bearer m
  have ⟨t, ht⟩ := hexists hgraftable.inRange.parent
  have ⟨_, hlisted, hentries, _, hsorted⟩ := hall t ht
  refine ⟨m, t, hm, ht, by rw [hlisted, hnames]; decide, hsorted hdistinct, fun type htype => ?_⟩
  have ⟨hdenotes, d, hd, _, _, hlookup⟩ := hentries type htype
  refine hlookup fun name hp => ⟨b, ?_⟩
  have hp := hp.symm.trans (hparent _ d hdenotes.mem_bearers.1 hd)
  cases hp
  exact ⟨hb, hbn⟩

-- In town, the road in the park takes the place of that in the city, ahead of the park.
theorem types_out_of_order_in_town : ∃ m t,
    (({} : Assembler).assemble townRequest).result = .ok m ∧ m.declaredTypes = .ok t ∧
    m.types.types = t.types ∧
    t.toList.map (fun type => (type.name, type.description)) =
      [("city", 1), ("road", 4), ("park", 3), ("lane", 5)] ∧
    ¬ (t.toList.map (·.description)).Pairwise (· < ·) := by
  have hfacts : (({} : Assembler).assemble townRequest).result.toOption.any (fun m =>
      m.declaredTypes.toOption.any fun t => m.types.types.entries = t.types.entries ∧
        t.toList.map (fun type => (type.name, type.description)) =
          [("city", 1), ("road", 4), ("park", 3), ("lane", 5)]) = true := by
    decide +kernel
  simp only [Option.any_eq_true, decide_eq_true_eq, toOption_eq_some_iff] at hfacts
  obtain ⟨m, hm, t, ht, htypes, hlisted⟩ := hfacts
  refine ⟨m, t, hm, ht, OrderedMap.ext htypes, hlisted, ?_⟩
  have hindices : t.toList.map (·.description) = [1, 4, 3, 5] := by
    simpa [Function.comp_def] using congrArg (List.map Prod.snd) hlisted
  rw [hindices]
  decide

end Model
end ModelAssembly
