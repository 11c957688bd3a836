import ModelAssembly.Proofs.Drafting
/-!
The scheduler in closed form: what adding it does to a model, and what it adds to the types.

Main statements: `addScheduler_eq` says which model comes out, with all that was moved;
`buildTypes_withScheduler` that the types get one entry more.
-/

namespace ModelAssembly

section

variable {ε σ β : Type} {P : σ → Prop} {f g : σ → β → Except ε σ} {l : List β} {s : σ}

-- Two loops whose steps agree under an invariant agree.
theorem foldlM_congr (start : P s) (h : ∀ s, P s → ∀ x ∈ l, g s x = f s x)
    (step : ∀ s, P s → ∀ x ∈ l, ∀ s', f s x = .ok s' → P s') : l.foldlM g s = l.foldlM f s := by
  induction l generalizing s
  case nil => rfl
  case cons x l hi =>
    rw [List.foldlM_cons, List.foldlM_cons, h s start x List.mem_cons_self]
    cases hx : f s x
    case error => rfl
    case ok s' =>
      exact hi (step s start x List.mem_cons_self s' hx)
        (fun t ht y hy => h t ht y (List.mem_cons_of_mem x hy))
        fun t ht y hy => step t ht y (List.mem_cons_of_mem x hy)

end

namespace OrderedMap

variable {κ α : Type} [DecidableEq κ] {m : OrderedMap κ α} {k : κ}

theorem erase_of_get?_eq_none (h : m.get? k = none) : m.erase k = m := by
  apply ext
  refine List.filter_eq_self.mpr fun e he => ?_
  have hk : k ∉ m.keys := by
    rw [mem_keys_iff, contains, h]
    exact Bool.false_ne_true
  have hne : e.1 ≠ k := fun hek => hk (hek ▸ List.mem_map_of_mem he)
  simpa using hne

end OrderedMap

namespace Facets

-- The facets of `facets` under `names`, in the order of the names.
def select (facets : Facets) (names : List String) : List (String × String) :=
  names.filterMap fun name => (facets.get? name).map (name, ·)

-- `facets` without those under `names`.
def without (facets : Facets) (names : List String) : Facets := names.foldl .erase facets

theorem select_erase {facets : Facets} {name : String} {names : List String} (h : name ∉ names) :
    select (facets.erase name) names = facets.select names := by
  refine List.filterMap_congr fun other ho => ?_
  have hne : name ≠ other := fun he => h (he ▸ ho)
  rw [OrderedMap.get?_erase, if_neg hne]

end Facets

namespace Model

open Description

variable {m n : Model} {i j : Nat} {d s : Description} {f g : Facets} {names : List String}
variable {types : TypeTable}

@[simp]
theorem root_withRootFacets : (m.withRootFacets f).root = { m.root with facets := f } := by
  rw [withRootFacets, alter, root_mapDescriptions, if_pos rfl]

-- Moving facets of the root to `s`, one after the other.
theorem foldlM_relocate (ho : m.root.isFinalized = false) (hs : s.isFinalized = false)
    (hn : names.Nodup) : names.foldlM relocate (m.withRootFacets f, { s with facets := g }) =
      .ok (m.withRootFacets (f.without names),
        { s with facets := g.insertAll (f.select names) }) := by
  induction names generalizing f g
  case nil => rfl
  case cons name names hi =>
    have ⟨hno, hn⟩ := List.nodup_cons.mp hn
    have hrest {g : Facets} := hi (f := f.erase name) (g := g) hn
    have hopen : (m.withRootFacets f).root.isFinalized = false := by rw [root_withRootFacets, ho]
    have hmodify : (m.withRootFacets f).modify rootIndex (·.removeFacet name) =
        .ok (m.withRootFacets (f.erase name)) := by
      have hm : (m.withRootFacets f).modify rootIndex (·.removeFacet name) = .ok
          ((m.withRootFacets f).alter rootIndex fun d => { d with facets := d.facets.erase name }) :=
        modify_edit (get?_rootIndex _) hopen _
      refine hm.trans (congrArg Except.ok ?_)
      refine mapDescriptions_mapDescriptions.trans (mapDescriptions_congr fun i d _ => ?_)
      by_cases hi : i = rootIndex <;> simp [hi]
    rw [Facets.select_erase hno] at hrest
    rw [List.foldlM_cons]
    cases hf : f.get? name
    case none =>
      have hstep : relocate (m.withRootFacets f, { s with facets := g }) name =
          .ok (m.withRootFacets f, { s with facets := g }) := by
        simp only [relocate, root_withRootFacets, hf]
      have hselect : f.select (name :: names) = f.select names := by simp [Facets.select, hf]
      rw [OrderedMap.erase_of_get?_eq_none hf] at hrest
      refine bind_eq_ok_iff.mpr ⟨_, hstep, ?_⟩
      rw [hselect, Facets.without, List.foldl_cons, OrderedMap.erase_of_get?_eq_none hf]
      exact hrest
    case some expression =>
      have hstep : relocate (m.withRootFacets f, { s with facets := g }) name =
          .ok (m.withRootFacets (f.erase name), { s with facets := g.insert name expression }) := by
        have hset : ({ s with facets := g } : Description).setFacet name expression =
            .ok { s with facets := g.insert name expression } :=
          edit_eq_ok_iff.mpr ⟨hs, rfl⟩
        simp only [relocate, root_withRootFacets, hf, hmodify, hset]
        rfl
      have hselect : f.select (name :: names) = (name, expression) :: f.select names := by
        simp [Facets.select, hf]
      refine bind_eq_ok_iff.mpr ⟨_, hstep, ?_⟩
      rw [hselect]
      exact hrest

-- The scheduler, as it stands in the root.
def scheduler (m : Model) : Description :=
  { ({ m.emptyScheduler with
      facets := .ofList (m.root.facets.select relocated) }).mergedWith
        (m.registry.species.get? Keyword.agent) with
    owner := some rootIndex }

-- But for its members, the scheduler does not depend on what is registered.
theorem scheduler_eq : ∃ members, m.scheduler = { m.emptyScheduler with
    facets := .ofList (m.root.facets.select relocated), owner := some rootIndex, members } := by
  unfold scheduler
  cases m.registry.species.get? Keyword.agent
  case none => exact ⟨∅, rfl⟩
  case some p => exact ⟨_, rfl⟩

-- `m` with the scheduler behind it, to which the facets of the root have gone.
def withScheduler (m : Model) : Model :=
  (m.withRootFacets (m.root.facets.without relocated)).grow rootIndex [m.size] [m.scheduler]

theorem addScheduler_eq (ho : m.root.isFinalized = false) :
    m.addScheduler = .ok (if m.hasSchedule then m.withScheduler else m) := by
  unfold addScheduler
  cases m.hasSchedule
  case false => rfl
  case true =>
    let s : Description :=
      { m.emptyScheduler with facets := .ofList (m.root.facets.select relocated) }
    have hmoved : relocated.foldlM relocate (m, m.emptyScheduler) =
        .ok (m.withRootFacets (m.root.facets.without relocated), s) := by
      have h := foldlM_relocate (f := m.root.facets) (s := m.emptyScheduler) (g := ∅) ho rfl
        (by decide : relocated.Nodup)
      rw [withRootFacets_self] at h
      exact h
    have hadd (d : Description) := add_eq (get?_rootIndex (m.withRootFacets
      (m.root.facets.without relocated))) (by rw [root_withRootFacets, ho]) d
    have hsize : (m.withRootFacets (m.root.facets.without relocated)).size = m.size := size_alter
    have hreg : (m.withRootFacets (m.root.facets.without relocated)).registry = m.registry := rfl
    have hin := inheritMembers_of_open (d := s) rfl
    simp only [if_true, hmoved, withScheduler, scheduler, bind, Except.bind, hreg]
    cases m.registry.species.get? Keyword.agent
    case none => exact (hadd s).trans (by rw [hsize]; rfl)
    case some p =>
      simp only [hin p]
      exact (hadd _).trans (by rw [hsize])

theorem size_withScheduler : m.withScheduler.size = m.size + 1 := by
  rw [withScheduler, size_grow, withRootFacets, size_alter]
  rfl

theorem root_withScheduler : m.withScheduler.root =
    { m.root with
      facets := m.root.facets.without relocated
      micro := m.root.micro ++ [m.size] } := by
  rw [withScheduler, root_grow, root_withRootFacets]

theorem get?_withScheduler (h0 : i ≠ rootIndex) (hi : i < m.size) :
    m.withScheduler.get? i = m.get? i := by
  rw [withScheduler, get?_grow_left _ _ (by simpa [withRootFacets] using hi) h0]
  simp [withRootFacets, h0]

theorem get?_scheduler : m.withScheduler.get? m.size = some m.scheduler := by
  have hsize : (m.withRootFacets (m.root.facets.without relocated)).size = m.size := size_alter
  rw [withScheduler, get?_grow_right _ _ (Nat.le_of_eq hsize), hsize, Nat.sub_self]
  rfl

-- Whoever was there keeps the kind, the name and the origin from a graft.
theorem get?_withScheduler_like (hi : i < m.size) :
    (m.withScheduler.get? i).map (fun d => (d.kind, d.name, d.graftedFrom)) =
      (m.get? i).map fun d => (d.kind, d.name, d.graftedFrom) := by
  by_cases h0 : i = rootIndex
  case neg => rw [get?_withScheduler h0 hi]
  case pos => simp [h0, get?_rootIndex, root_withScheduler]

theorem nonRoot_withScheduler : m.withScheduler.nonRoot = m.nonRoot ++ [(m.scheduler, m.size)] := by
  have ⟨ds, hd⟩ : ∃ ds, m.descriptions = m.root :: ds := ⟨_, (List.cons_head_tail m.nonempty).symm⟩
  have hid : (ds.mapIdx fun _ d => d) = ds := mapIdx_eq_self fun _ _ _ => rfl
  simp [nonRoot, withScheduler, grow, append, alter, withRootFacets, mapDescriptions, hd, size,
    rootIndex, List.mapIdx_cons, hid, List.zipIdx_append, Nat.add_comm]

theorem parentTypeName_withScheduler (hp : ∀ j, d.parent = some (.declared j) → j < m.size) :
    m.withScheduler.parentTypeName d = m.parentTypeName d := by
  unfold parentTypeName
  split
  case h_1 => rfl
  case h_2 => rfl
  case h_3 j hj =>
    have hj := hp j hj
    have ⟨e, he⟩ := get?_of_lt_size hj
    have ⟨e', he', hn⟩ := Option.map_eq_some_iff.mp
      ((get?_withScheduler_like hj).trans (congrArg (Option.map _) he))
    have hname : e'.name = e.name := (Prod.mk.inj (Prod.mk.inj hn).2).1
    rw [get_eq_ok_iff.mpr he, get_eq_ok_iff.mpr he']
    exact congrArg (fun name => Except.ok (some name)) hname

-- All types of `t` are those of descriptions of `m`.
def Holds (m : Model) (t : TypeTable) : Prop :=
  ∀ name type, t.types.get? name = some type → type.description < m.size

theorem Holds.insert {t : TypeTable} {type : SpeciesType} (h : m.Holds t)
    (ht : type.description < m.size) : m.Holds (t.insert type) := by
  intro name other ho
  rw [TypeTable.insert, OrderedMap.get?_insert] at ho
  split at ho
  case isTrue => exact Option.some.inj ho ▸ ht
  case isFalse => exact h name other ho

theorem shadows_withScheduler {t : TypeTable} (h : m.Holds t) :
    m.withScheduler.shadows t d = m.shadows t d := by
  unfold shadows
  cases ht : t.types.get? d.name
  case none => rfl
  case some type =>
    have hown := congrArg (Option.map fun x => x.2.2.isNone)
      (get?_withScheduler_like (h d.name type ht))
    simp only [Option.map_map] at hown
    have hany (n : Model) : (n.get? type.description).any (·.isOwn) =
        ((n.get? type.description).map (·.isOwn)).getD false := by
      cases n.get? type.description <;> rfl
    simp only [Option.any_some, hany]
    exact congrArg (fun x => !d.isOwn && x.getD false) hown

-- Its type is the last that is added.
theorem declaredTypes_withScheduler (hp : ∀ i j, m.Extends i j → j < m.size) {t : TypeTable}
    (ht : m.declaredTypes = .ok t) : m.withScheduler.declaredTypes =
      .ok (t.insert ⟨Keyword.scheduler, m.size, some Keyword.agent⟩) := by
  have hmem (x : Description × Nat) (hx : x ∈ m.nonRoot) : m.get? x.2 = some x.1 :=
    List.mem_zipIdx_iff_getElem?.mp (List.mem_of_mem_drop hx)
  obtain ⟨members, hs⟩ := scheduler_eq (m := m)
  have hown : m.scheduler.isOwn = true := hs ▸ rfl
  have hname : m.scheduler.name = Keyword.scheduler := hs ▸ rfl
  have hparent : m.scheduler.parent = some (.builtIn Keyword.agent) := hs ▸ rfl
  rw [declaredTypes, nonRoot_withScheduler, List.foldlM_append]
  refine bind_eq_ok_iff.mpr ⟨t, ?_, ?_⟩
  · rw [← ht, declaredTypes]
    refine foldlM_congr (P := m.Holds) (fun name type h => by simp at h) (fun t ht x hx => ?_)
      fun t ht x hx t' h => ?_
    · simp only [shadows_withScheduler ht,
        parentTypeName_withScheduler fun j hj => hp x.2 j ⟨x.1, hmem x hx, hj⟩]
    · simp only at h
      split at h
      case isTrue => exact Except.ok.inj h ▸ ht
      case isFalse =>
        obtain ⟨parent, _, h⟩ := bind_eq_ok_iff.mp h
        exact Except.ok.inj h ▸ ht.insert (lt_size_of_get? (hmem x hx))
  · simp [shadows, hown, parentTypeName, hparent, hname]

theorem buildTypes_withScheduler (hp : ∀ i j, m.Extends i j → j < m.size)
    (hg : ∀ e ∈ m.grafts.entries, e.2 < m.size) (ht : m.buildTypes = .ok { m with types }) :
    m.withScheduler.buildTypes = .ok { m.withScheduler with
      types := types.insert ⟨Keyword.scheduler, m.size, some Keyword.agent⟩ } := by
  obtain ⟨declared, hd, ht⟩ := bind_eq_ok_iff.mp ht
  obtain ⟨aliased, ha, ht⟩ := bind_eq_ok_iff.mp ht
  have haliased : aliased = types := congrArg Model.types (Except.ok.inj ht)
  subst haliased
  refine bind_eq_ok_iff.mpr ⟨_, declaredTypes_withScheduler hp hd, ?_⟩
  refine bind_eq_ok_iff.mpr ⟨_, ?_, rfl⟩
  -- Names of grafts do not depend on the types that are there.
  have halias (es : List (String × Nat)) (t t' : TypeTable) (hes : ∀ e ∈ es, e.2 < m.size)
      (h : es.foldlM (fun (t : TypeTable) (x : String × Nat) => do
        return t.addAlias x.1 (← m.get x.2).name) t = .ok t') :
      es.foldlM (fun (t : TypeTable) (x : String × Nat) => do
        return t.addAlias x.1 (← m.withScheduler.get x.2).name)
          (t.insert ⟨Keyword.scheduler, m.size, some Keyword.agent⟩) =
        .ok (t'.insert ⟨Keyword.scheduler, m.size, some Keyword.agent⟩) := by
    induction es generalizing t
    case nil =>
      cases h
      rfl
    case cons e es hi =>
      have he := hes e List.mem_cons_self
      obtain ⟨d, hd⟩ := get?_of_lt_size he
      obtain ⟨d', hd', hn⟩ := Option.map_eq_some_iff.mp
        ((get?_withScheduler_like he).trans (congrArg (Option.map _) hd))
      have hname : d'.name = d.name := (Prod.mk.inj (Prod.mk.inj hn).2).1
      rw [List.foldlM_cons] at h ⊢
      obtain ⟨t₁, h₁, h⟩ := bind_eq_ok_iff.mp h
      obtain ⟨e₁, he₁, h₁⟩ := bind_eq_ok_iff.mp h₁
      cases hd.symm.trans (get_eq_ok_iff.mp he₁)
      cases h₁
      refine bind_eq_ok_iff.mpr ⟨_, bind_eq_ok_iff.mpr ⟨d', get_eq_ok_iff.mpr hd', rfl⟩, ?_⟩
      rw [hname]
      exact hi _ (fun x hx => hes x (List.mem_cons_of_mem e hx)) h
  exact halias _ _ _ hg ha

end Model

namespace Assembler

open Model in
-- What adding a scheduler and the types comes to.
theorem finish_eq_ok {a : Assembler} {n m : Model} (ho : n.root.isFinalized = false)
    (h : (a.finish n).result = .ok m) : ∃ types, m =
      { (if a.settings.legacyScheduling && n.hasSchedule then n.withScheduler else n) with
        types } := by
  have ⟨s, hs, h⟩ := Outcome.bind_eq_ok_iff.mp h
  have hs := Outcome.ofModel_eq_ok_iff.mp hs
  rw [addScheduler_eq ho] at hs
  have hs : s = if a.settings.legacyScheduling && n.hasSchedule then n.withScheduler else n := by
    cases hl : a.settings.legacyScheduling <;> simp_all
  exact hs ▸ buildTypes_eq_ok (Outcome.ofModel_eq_ok_iff.mp h)

end Assembler

end ModelAssembly
