import ModelAssembly.Proofs.Replacements
/-!
Global blocks, against what their tree would be without them: with their facets over its own and
their children behind its own. Both give the same facets, experiments and global members. Species
are another matter, as grids come behind the plain species of their own scope only, not behind those
of the scopes that follow.

Main statements: `speciesDeclarations_inlined` says that to inline blocks is to part the species of
a tree into plain ones and grids; `inlining_global_blocks` when that makes a difference.
-/

open ModelAssembly.OrderedMap

namespace ModelAssembly

section

variable {α κ : Type} [DecidableEq κ] {key : α → κ} {p : α → Bool} {known ks : List κ}
  {l l' : List α} {k : κ} {x : α}

-- The keys that `l` adds to those known, in the order in which they arrive.
def newKeys (key : α → κ) (known : List κ) (l : List α) : List κ :=
  ((l.map key).filter (· ∉ known)).eraseDups

theorem mem_newKeys : k ∈ newKeys key known l ↔ k ∈ l.map key ∧ k ∉ known := by
  rw [newKeys, List.mem_eraseDups, List.mem_filter, decide_eq_true_iff]

theorem nodup_newKeys : (newKeys key known l).Nodup := nodup_eraseDups _

theorem newKeys_known : newKeys key (known ++ ks) l = (newKeys key known l).filter (· ∉ ks) := by
  simp only [newKeys, ← eraseDups_filter, List.filter_filter, List.mem_append, not_or,
    Bool.decide_and, Bool.and_comm]

theorem newKeys_append :
    newKeys key known (l ++ l') = newKeys key known l ++ newKeys key (known ++ l.map key) l' := by
  rw [newKeys_known]
  simp only [newKeys, List.map_append, List.filter_append, List.eraseDups_append, List.removeAll,
    ← eraseDups_filter]
  congr 2
  refine List.filter_congr fun k hk => ?_
  have hknown : k ∉ known := by simpa using List.of_mem_filter hk
  by_cases hl : k ∈ l.map key <;> simp only [List.elem_eq_mem, List.mem_filter, hl, hknown] <;> rfl

theorem newKeys_filter (hp : ∀ x ∈ l, p x = false → key x ∈ known) :
    newKeys key known (l.filter p) = newKeys key known l := by
  rw [newKeys, newKeys, List.filter_map, List.filter_map, List.filter_filter]
  congr 2
  refine List.filter_congr fun x hx => ?_
  cases hpx : p x <;> simp [hp x hx, hpx]

theorem newKeys_perm (h : ks.Perm known) : newKeys key ks l = newKeys key known l := by
  simp only [newKeys, h.mem_iff]

-- To move the others behind those that satisfy `p` leaves the new keys in order if those of the
-- former come first as it is.
theorem newKeys_parted :
    newKeys key known (l.filter p ++ l.filter (!p ·)) = newKeys key known l ↔
      newKeys key known (l.filter p) <+: newKeys key known l := by
  have hrest : newKeys key (known ++ (l.filter p).map key) (l.filter (!p ·)) =
      newKeys key (known ++ (l.filter p).map key) l := by
    refine newKeys_filter fun x hx hpx => List.mem_append_right _ ?_
    exact List.mem_map_of_mem (List.mem_filter.mpr ⟨hx, by simpa using hpx⟩)
  rw [newKeys_append, hrest]
  constructor
  case mp => exact fun h => ⟨_, h⟩
  case mpr =>
    intro ⟨rest, h⟩
    have hnodup : (newKeys key known (l.filter p) ++ rest).Nodup := h ▸ nodup_newKeys
    have hfirst : (newKeys key known (l.filter p)).filter (· ∉ (l.filter p).map key) = [] :=
      List.filter_eq_nil_iff.mpr fun k hk hn => of_decide_eq_true hn (mem_newKeys.mp hk).1
    have hlast : rest.filter (· ∉ (l.filter p).map key) = rest := by
      refine List.filter_eq_self.mpr fun k hk => decide_eq_true fun hp => ?_
      have hnew : k ∈ newKeys key known l := h ▸ List.mem_append_right _ hk
      have hfirst := mem_newKeys.mpr ⟨hp, (mem_newKeys.mp hnew).2⟩
      exact (List.nodup_append.mp hnodup).2.2 k hfirst k hk rfl
    rw [newKeys_known, ← h, List.filter_append, hfirst, hlast, List.nil_append]

-- To move the others behind leaves a key with its last value if that is one of the others, or if
-- none of the others has the key.
theorem lastOf_parted :
    lastOf key k (l.filter p ++ l.filter (!p ·)) = lastOf key k l ↔
      (k ∈ (l.filter (!p ·)).map key → (lastOf key k l).any (!p ·)) := by
  rw [lastOf_append]
  cases hl : lastOf key k l
  case none =>
    have hnone (q : α → Bool) : k ∉ (l.filter q).map key := fun hk =>
      lastOf_eq_none_iff.mp hl (List.map_subset key (List.filter_subset_self l) hk)
    rw [lastOf_eq_none_iff.mpr (hnone _), lastOf_eq_none_iff.mpr (hnone _)]
    exact iff_of_true rfl fun hk => absurd hk (hnone _)
  case some x =>
    cases hp : p x
    case false => simp [lastOf_filter hl (p := (!p ·)) (by simp [hp]), hp]
    case true =>
      rw [lastOf_filter hl hp, Option.any_some, hp]
      cases hlast : lastOf key k (l.filter (!p ·))
      case none => simp [lastOf_eq_none_iff.mp hlast]
      case some y =>
        obtain ⟨hy, hk⟩ := mem_of_lastOf hlast
        have hpy : y ≠ x := fun he => by simp [he, hp] at hy
        have hm : k ∈ (l.filter (!p ·)).map key := List.mem_map.mpr ⟨y, hy, hk⟩
        simp [hpy, -List.mem_map, hm]

-- Two tables that differ in what was set in between.
theorem ofList_eq_ofList_iff {β : Type} {before after es es' : List (κ × β)}
    (h : (es'.map Prod.fst).Perm (es.map Prod.fst)) :
    ofList (before ++ es' ++ after) = ofList (before ++ es ++ after) ↔
      newKeys Prod.fst (before.map Prod.fst) es' = newKeys Prod.fst (before.map Prod.fst) es ∧
      ∀ k ∉ after.map Prod.fst, lastOf Prod.fst k es' = lastOf Prod.fst k es := by
  have hkeys (es : List (κ × β)) : (ofList (before ++ es ++ after)).keys =
      newKeys Prod.fst [] before ++ newKeys Prod.fst (before.map Prod.fst) es ++
        newKeys Prod.fst (before.map Prod.fst ++ es.map Prod.fst) after := by
    have hall : (ofList (before ++ es ++ after)).keys =
        newKeys Prod.fst [] (before ++ es ++ after) := by simp [keys_ofList, newKeys]
    rw [hall, newKeys_append, newKeys_append, List.map_append, List.nil_append, List.nil_append]
  have hvalue (es : List (κ × β)) (k : κ) : (ofList (before ++ es ++ after)).get? k =
      ((lastOf Prod.fst k after).or ((lastOf Prod.fst k es).or (lastOf Prod.fst k before))).map
        Prod.snd := by
    have hall : (ofList ((before ++ es ++ after).map fun e => (e.1, e.2))).get? k =
        (lastOf Prod.fst k (before ++ es ++ after)).map Prod.snd := get?_ofList_keyed Prod.snd k _
    rw [List.map_id', lastOf_append, lastOf_append] at hall
    exact hall
  have hnew : newKeys Prod.fst (before.map Prod.fst ++ es'.map Prod.fst) after =
      newKeys Prod.fst (before.map Prod.fst ++ es.map Prod.fst) after :=
    newKeys_perm (h.append_left _)
  constructor
  case mp =>
    intro htable
    refine ⟨?keys, fun k hk => ?value⟩
    case keys =>
      have he := congrArg keys htable
      rw [hkeys, hkeys, hnew] at he
      exact List.append_cancel_left (List.append_cancel_right he)
    case value =>
      have he := congrArg (·.get? k) htable
      simp only [hvalue, lastOf_eq_none_iff.mpr hk, Option.none_or] at he
      cases hl : lastOf Prod.fst k es
      case none => exact lastOf_eq_none_iff.mpr fun hm => lastOf_eq_none_iff.mp hl (h.mem_iff.mp hm)
      case some x =>
        cases hl' : lastOf Prod.fst k es'
        case none =>
          have hm := h.mem_iff.not.mp (lastOf_eq_none_iff.mp hl')
          cases hl.symm.trans (lastOf_eq_none_iff.mpr hm)
        case some y =>
          rw [hl, hl', Option.some_or, Option.some_or, Option.map_some, Option.map_some] at he
          have hkey := (mem_of_lastOf hl').2.trans (mem_of_lastOf hl).2.symm
          exact congrArg some (Prod.ext hkey (Option.some.inj he))
  case mpr =>
    rintro ⟨hk, hv⟩
    refine ext_get? (by rw [hkeys, hkeys, hk, hnew]) fun k => ?_
    rw [hvalue, hvalue]
    by_cases hm : k ∈ after.map Prod.fst
    case pos =>
      obtain ⟨x, hx⟩ := Option.ne_none_iff_exists'.mp (lastOf_eq_none_iff.not.mpr (not_not.mpr hm))
      rw [hx, Option.some_or, Option.some_or]
    case neg => rw [hv k hm]

end

namespace Element

-- `tree` with its global blocks written out: their facets over its own, their children behind its
-- own.
def inlined (tree : Element) : Element :=
  { tree with
    facets := tree.globals.foldl (fun facets block => facets.merge block.facets) tree.facets
    children := tree.children.filter (·.kind ≠ .global) ++ tree.globals.flatMap (·.children) }

theorem flatMap_children_filter {q : Element → Bool} (hq : ∀ e, e.kind = .global → q e = false)
    (tree : Element) : tree.inlined.children.filter q =
      (Declarations.scopes tree).flatMap fun scope => scope.children.filter q := by
  have htop : (tree.children.filter (·.kind ≠ .global)).filter q = tree.children.filter q := by
    rw [List.filter_filter]
    refine List.filter_congr fun e _ => ?_
    by_cases he : e.kind = .global
    case pos => simp [hq e he]
    case neg => simp [he]
  rw [inlined, List.filter_append, htop, List.filter_flatMap]
  rfl

end Element

namespace Declarations

variable {tree : Element}

-- The species that `tree` declares, in the order in which they are collected.
def speciesOf (tree : Element) : List Element := (scopes tree).flatMap (·.speciesDeclarations)

def isGrid (e : Element) : Bool := e.kind = .grid

-- To inline global blocks is to move the grids behind all other species.
theorem speciesDeclarations_inlined (tree : Element) : tree.inlined.speciesDeclarations =
    (speciesOf tree).filter (!isGrid ·) ++ (speciesOf tree).filter isGrid := by
  have hplain (scope : Element) : scope.speciesDeclarations.filter (!isGrid ·) =
      scope.children.filter (·.kind = .species) := by
    rw [Element.speciesDeclarations, List.filter_append, List.filter_filter, List.filter_filter]
    have hnone : scope.children.filter (fun e => !isGrid e && e.kind = .grid) = [] :=
      List.filter_eq_nil_iff.mpr fun e _ => by simp [isGrid]
    rw [hnone, List.append_nil]
    refine List.filter_congr fun e _ => ?_
    cases he : e.kind <;> simp [isGrid, he]
  have hgrids (scope : Element) : scope.speciesDeclarations.filter isGrid =
      scope.children.filter (·.kind = .grid) := by
    rw [Element.speciesDeclarations, List.filter_append, List.filter_filter, List.filter_filter]
    have hnone : scope.children.filter (fun e => isGrid e && e.kind = .species) = [] :=
      List.filter_eq_nil_iff.mpr fun e _ => by cases he : e.kind <;> simp [isGrid, he]
    rw [hnone, List.nil_append]
    refine List.filter_congr fun e _ => ?_
    simp [isGrid]
  rw [speciesOf, List.filter_flatMap, List.filter_flatMap]
  simp only [hplain, hgrids]
  exact congrArg₂ (· ++ ·)
    (Element.flatMap_children_filter (fun e he => by simp [he]) tree)
    (Element.flatMap_children_filter (fun e he => by simp [he]) tree)

theorem parted_perm (es : List Element) :
    (es.filter (!isGrid ·) ++ es.filter isGrid).Perm es :=
  List.perm_append_comm.trans (List.filter_append_perm isGrid es)

theorem experiments_inlined (tree : Element) :
    tree.inlined.experiments = (scopes tree).flatMap (·.experiments) :=
  Element.flatMap_children_filter (fun e he => by simp [he, ElementKind.isExperiment]) tree

theorem globalMembers_inlined (origin : String) (tree : Element) :
    globalMembers origin tree.inlined = (scopes tree).flatMap (globalMembers origin) := by
  have hmembers : tree.inlined.members = (scopes tree).flatMap (·.members) :=
    Element.flatMap_children_filter (fun e he => by simp [he, ElementKind.role?]) tree
  rw [globalMembers, Member.declaredIn, hmembers, List.filterMap_flatMap, List.map_flatMap]
  rfl

theorem facets_inlined (tree : Element) : tree.inlined.facets =
    tree.facets.insertAll (tree.globals.flatMap (·.facets.entries)) := by
  have hfold (facets : Facets) (blocks : List Element) :
      blocks.foldl (fun facets block => facets.merge block.facets) facets =
        facets.insertAll (blocks.flatMap (·.facets.entries)) := by
    induction blocks generalizing facets
    case nil => rfl
    case cons block blocks hi =>
      rw [List.foldl_cons, hi, List.flatMap_cons, insertAll_append, merge_eq_insertAll]
  exact hfold tree.facets tree.globals

-- The blocks that are inlined contain no further ones.
theorem scopes_inlined (h : ∀ block ∈ tree.globals, block.globals = []) :
    scopes tree.inlined = [tree.inlined] := by
  have hglobals : tree.inlined.globals = [] := by
    rw [Element.globals, Element.inlined, List.filter_append, List.filter_filter,
      List.filter_flatMap]
    refine List.append_eq_nil_iff.mpr ⟨?_, List.flatMap_eq_nil_iff.mpr h⟩
    exact List.filter_eq_nil_iff.mpr fun e _ => by simp
  rw [scopes, hglobals]

theorem speciesOf_inlined_perm (h : ∀ block ∈ tree.globals, block.globals = []) :
    (speciesOf tree.inlined).Perm (speciesOf tree) := by
  rw [speciesOf, scopes_inlined h, List.flatMap_singleton, speciesDeclarations_inlined]
  exact parted_perm _

section

variable {κ α : Type} {entries : String → Element → List (κ × α)} {before after : List Element}

theorem allGiven_around (entries : String → Element → List (κ × α)) :
    allGiven entries (before ++ tree :: after) =
      allGiven entries after ++ given entries tree ++ allGiven entries before := by
  simp [allGiven]

theorem given_declarationEntries (select : Element → List Element) :
    given (fun origin scope => declarationEntries origin (select scope)) tree =
      declarationEntries tree.modelName ((scopes tree).flatMap select) :=
  List.map_flatMap.symm

theorem given_inlined (h : ∀ block ∈ tree.globals, block.globals = []) :
    given entries tree.inlined = entries tree.modelName tree.inlined := by
  rw [given, scopes_inlined h, List.flatMap_singleton]
  rfl

end

-- The names of the species that trees declare.
def speciesNames (trees : List Element) : List String :=
  (trees.flatMap speciesOf).map (·.nameOrKeyword)

theorem names_allGiven (trees : List Element) :
    ((allGiven speciesEntries trees).map Prod.fst).Perm (speciesNames trees) := by
  have hnames : (allGiven speciesEntries trees).map Prod.fst = speciesNames trees.reverse := by
    simp only [allGiven, given, speciesEntries, declarationEntries, speciesNames, speciesOf,
      List.map_flatMap, List.map_map]
    rfl
  exact hnames ▸ (trees.reverse_perm.flatMap_right speciesOf).map _

-- What sets a table of species apart from the one with blocks inlined.
theorem species_inlined_iff {origin : String} {es : List Element}
    {before after : List (String × Declaration)} :
    ofList (before ++ declarationEntries origin (es.filter (!isGrid ·) ++ es.filter isGrid) ++
        after) = ofList (before ++ declarationEntries origin es ++ after) ↔
      newKeys (·.nameOrKeyword) (before.map Prod.fst) (es.filter (!isGrid ·)) <+:
        newKeys (·.nameOrKeyword) (before.map Prod.fst) es ∧
      ∀ e ∈ es, isGrid e → e.nameOrKeyword ∉ after.map Prod.fst →
        (lastOf (·.nameOrKeyword) e.nameOrKeyword es).any isGrid := by
  have hinj : Function.Injective fun e : Element => (e.nameOrKeyword, Declaration.mk e origin) :=
    fun e e' he => congrArg (·.2.element) he
  have hnew (known : List String) (es : List Element) : newKeys Prod.fst known
      (declarationEntries origin es) = newKeys (·.nameOrKeyword) known es := by
    rw [newKeys, newKeys, declarationEntries, List.map_map]
    rfl
  have hlast (name : String) (es : List Element) : lastOf Prod.fst name
      (declarationEntries origin es) = (lastOf (·.nameOrKeyword) name es).map
        fun e => (e.nameOrKeyword, ⟨e, origin⟩) := lastOf_map _ _
  have hparted (known : List String) :
      newKeys (·.nameOrKeyword) known (es.filter (!isGrid ·) ++ es.filter isGrid) =
        newKeys (·.nameOrKeyword) known es ↔
      newKeys (·.nameOrKeyword) known (es.filter (!isGrid ·)) <+:
        newKeys (·.nameOrKeyword) known es := by
    simpa only [Bool.not_not] using newKeys_parted (p := (!isGrid ·)) (l := es)
  have hvalue (name : String) :
      lastOf (·.nameOrKeyword) name (es.filter (!isGrid ·) ++ es.filter isGrid) =
        lastOf (·.nameOrKeyword) name es ↔ (name ∈ (es.filter isGrid).map (·.nameOrKeyword) →
          (lastOf (·.nameOrKeyword) name es).any isGrid) := by
    simpa only [Bool.not_not] using lastOf_parted (p := (!isGrid ·)) (l := es) (k := name)
  have hnames (es : List Element) : (declarationEntries origin es).map Prod.fst =
      es.map (·.nameOrKeyword) := List.map_map
  have hperm : ((declarationEntries origin (es.filter (!isGrid ·) ++ es.filter isGrid)).map
      Prod.fst).Perm ((declarationEntries origin es).map Prod.fst) := by
    rw [hnames, hnames]
    exact (parted_perm es).map _
  rw [ofList_eq_ofList_iff hperm, hnew, hnew, hparted]
  simp only [hlast, (Option.map_injective hinj).eq_iff, hvalue]
  refine and_congr_right fun _ => ⟨fun h e he hgrid hn => ?_, fun h name hn hgrid => ?_⟩
  case refine_1 => exact h _ hn (List.mem_map_of_mem (List.mem_filter.mpr ⟨he, hgrid⟩))
  case refine_2 =>
    obtain ⟨e, he, hname⟩ := List.mem_map.mp hgrid
    obtain ⟨he, hgrid⟩ := List.mem_filter.mp he
    exact hname ▸ h e he hgrid (hname ▸ hn)

-- Trees in which a tree stands as it is or with its global blocks inlined give the same facets,
-- experiments and global members, and species of the same names. The species are in the same order
-- if the plain ones bring their names before those that only grids have, and the same ones survive
-- if no plain species comes behind a grid of its name.
theorem inlining_global_blocks {tree : Element} (h : ∀ block ∈ tree.globals, block.globals = [])
    (before after : List Element) :
    let ds := (ofTrees (before ++ tree :: after)).1
    let inlined := (ofTrees (before ++ tree.inlined :: after)).1
    inlined.facets = ds.facets ∧ inlined.experiments = ds.experiments ∧
    inlined.members = ds.members ∧ inlined.species.keys.Perm ds.species.keys ∧
    (inlined.species = ds.species ↔
      newKeys (·.nameOrKeyword) (speciesNames after) ((speciesOf tree).filter (!isGrid ·)) <+:
        newKeys (·.nameOrKeyword) (speciesNames after) (speciesOf tree) ∧
      ∀ e ∈ speciesOf tree, isGrid e → e.nameOrKeyword ∉ speciesNames before →
        (lastOf (·.nameOrKeyword) e.nameOrKeyword (speciesOf tree)).any isGrid) := by
  refine ⟨?facets, ?experiments, ?members, ?names, ?species⟩
  case facets =>
    have hgiven : given facetEntries tree =
        tree.facets.entries ++ tree.globals.flatMap (·.facets.entries) := rfl
    rw [facets_ofTrees, facets_ofTrees, allGiven_around, allGiven_around, given_inlined h,
      ofList_eq_insertAll, ofList_eq_insertAll, insertAll_append, insertAll_append,
      insertAll_append, insertAll_append, hgiven, insertAll_append, facetEntries, facets_inlined,
      ← merge_eq_insertAll, merge_insertAll, merge_eq_insertAll]
  case experiments =>
    rw [experiments_ofTrees, experiments_ofTrees, allGiven_around, allGiven_around,
      given_inlined h, experimentEntries, experiments_inlined, ← given_declarationEntries]
    rfl
  case members =>
    have hentries : allGiven memberEntries (before ++ tree.inlined :: after) =
        allGiven memberEntries (before ++ tree :: after) := by
      rw [allGiven_around, allGiven_around, given_inlined h, memberEntries, globalMembers_inlined,
        List.map_flatMap]
      rfl
    have hmembers := congrArg (List.map Prod.snd) hentries
    rw [← members_ofTrees, ← members_ofTrees, List.map_map, List.map_map] at hmembers
    simpa only [Function.comp_def, List.map_id'] using hmembers
  case names =>
    refine (List.perm_ext_iff_of_nodup (nodup_keys _) (nodup_keys _)).mpr fun name => ?_
    rw [species_ofTrees, species_ofTrees, keys_ofList, keys_ofList, List.mem_eraseDups,
      List.mem_eraseDups, (names_allGiven _).mem_iff, (names_allGiven _).mem_iff]
    simp only [speciesNames, List.flatMap_append, List.flatMap_cons, List.map_append,
      List.mem_append, List.mem_map, (speciesOf_inlined_perm h).mem_iff]
  case species =>
    have hgiven : given speciesEntries tree =
        declarationEntries tree.modelName (speciesOf tree) := given_declarationEntries _
    rw [species_ofTrees, species_ofTrees, allGiven_around, allGiven_around, given_inlined h,
      hgiven, speciesEntries, speciesDeclarations_inlined, species_inlined_iff]
    simp only [newKeys_perm (names_allGiven after), (names_allGiven before).mem_iff]

-- A wolf at the top, and cells in a global block.
def pasture : Element where
  kind := .model
  name := some "pasture"
  children := [{ kind := .species, name := some "wolf" },
    { kind := .global, children := [{ kind := .grid, name := some "cell" }] }]

theorem inlining_global_blocks_in_pasture :
    (∀ block ∈ pasture.globals, block.globals = []) ∧
      (ofTrees [pasture.inlined]).1.species = (ofTrees [pasture]).1.species ∧
      (ofTrees [pasture.inlined]).1.experiments = (ofTrees [pasture]).1.experiments := by
  have hblocks : ∀ block ∈ pasture.globals, block.globals = [] := by simp [pasture, Element.globals]
  have ⟨_, experiments, _, _, species⟩ := inlining_global_blocks hblocks [] []
  exact ⟨hblocks, species.mpr (by decide +kernel), experiments⟩

-- A cell at the top, and a global block with a plain species of the name.
def cellFirst (species : String) : Element where
  kind := .model
  name := some "main"
  children := [{ kind := .grid, name := some "cell" },
    { kind := .global, children := [{ kind := .species, name := some species }] }]

-- The cells stay ahead of the wolf behind them, and give way to the plain species of their name.
theorem grid_before_species :
    (ofTrees [cellFirst "wolf"]).1.species.keys = ["cell", "wolf"] ∧
    (ofTrees [(cellFirst "wolf").inlined]).1.species.keys = ["wolf", "cell"] ∧
    (ofTrees [cellFirst "cell"]).1.species.values.map (·.element.kind) = [.species] ∧
    (ofTrees [(cellFirst "cell").inlined]).1.species.values.map (·.element.kind) = [.grid] := by
  decide +kernel

end Declarations

end ModelAssembly
