import ModelAssembly.Proofs.Replacements
/-!
Classes of collisions: whether a declaration that replaces another one counts as a duplicate, which
is an error, or as one that supersedes a declaration of another tree. Trees are told apart by the
names of their models, which their titles determine, so that this is right exactly as long as no
two trees of one title collide.

Main statements: `collisions_by_title`; `mistaken_for_duplicate` has two trees that do collide.
-/

open ModelAssembly.OrderedMap

namespace ModelAssembly

namespace Keyword

-- What the name of a model keeps of the title of its tree.
def underscored (title : String) : List Char :=
  title.toList.map fun c => if c = ' ' then '_' else c

theorem modelName_eq_iff {s t : String} :
    modelName s = modelName t ↔ underscored s = underscored t := by
  have hm (s : String) : modelName s = String.ofList (underscored s) ++ "_model" := rfl
  rw [hm, hm, String.append_left_inj, String.ofList_inj]

end Keyword

namespace Declarations

variable {select : Element → List Element} {trees : List Element} {a b : Sourced}
  {same same' : Sourced → Sourced → Prop} {code : Code} {p q : Prop} {d : Diagnostic}

theorem getElem?_of_mem_found (h : a ∈ found select trees) : trees[a.place]? = some a.tree := by
  have ⟨(tree, place), ht, h⟩ := List.mem_flatMap.mp h
  have ⟨scope, _, h⟩ := List.mem_flatMap.mp h
  have ⟨e, _, h⟩ := List.mem_map.mp h
  cases h
  exact List.mk_mem_zipIdx_iff_getElem?.mp (List.mem_reverse.mp ht)

-- Two declarations stand in one tree of the list.
def SameTree (a b : Sourced) : Prop := a.place = b.place

-- Two declarations stand in trees whose titles agree, up to spaces and underscores.
def SameTitle (a b : Sourced) : Prop :=
  Keyword.underscored a.tree.nameOrKeyword = Keyword.underscored b.tree.nameOrKeyword

-- By its code, `d` is an error that tells of a duplicate if `p` holds, and if not it is an
-- information.
structure Classifies (code : Code) (p : Prop) (d : Diagnostic) : Prop where
  duplicate : d.severity = .error ∧ d.code = some code ↔ p
  supersedes : d.severity = .info ∧ d.code = some .superseded ↔ ¬ p

theorem Classifies.iff (h : Classifies code p d) : Classifies code q d ↔ (q ↔ p) := by
  constructor
  case mp => exact fun hq => hq.duplicate.symm.trans h.duplicate
  case mpr => exact fun hq => ⟨h.duplicate.trans hq.symm, h.supersedes.trans (not_congr hq.symm)⟩

theorem classifies_report {kind : DescriptionKind} {o : Sourced × Sourced}
    (hcode : code = if kind = .experiment then .duplicateExperiment else .duplicateSpecies) :
    Classifies code (SameTitle o.1 o.2) (report kind o) := by
  have hsame : o.1.declaration.origin = o.2.tree.modelName ↔ SameTitle o.1 o.2 :=
    Keyword.modelName_eq_iff
  rw [report, collision]
  split
  case isTrue h => exact ⟨by simp [duplicate, hcode, ← hsame, h], by simp [duplicate, ← hsame, h]⟩
  case isFalse h => exact ⟨by simp [supersedes, ← hsame, h], by simp [supersedes, ← hsame, h]⟩

-- The species, and then the experiments, of `trees` that replace one of their name.
def collisions (trees : List Element) : List (Sourced × Sourced) :=
  replacements Sourced.name (found (·.speciesDeclarations) trees) ++
    replacements Sourced.name (found (·.experiments) trees)

theorem getElem?_of_mem_collisions {o : Sourced × Sourced} (h : o ∈ collisions trees) :
    trees[o.1.place]? = some o.1.tree ∧ trees[o.2.place]? = some o.2.tree := by
  cases List.mem_append.mp h
  all_goals
    rename_i h
    have ⟨ha, hb⟩ := mem_of_mem_replacements h
    exact ⟨getElem?_of_mem_found ha, getElem?_of_mem_found hb⟩

-- Each declaration that replaces another has one report, an error if `same` holds of the two and
-- an information if not.
structure ClassifiedBy (same : Sourced → Sourced → Prop) (trees : List Element) : Prop where
  species : List.Forall₂ (fun o => Classifies .duplicateSpecies (same o.1 o.2))
    (replacements Sourced.name (found (·.speciesDeclarations) trees))
    ((ofTrees trees).2.filter fun d => !d.onExperiment)
  experiments : List.Forall₂ (fun o => Classifies .duplicateExperiment (same o.1 o.2))
    (replacements Sourced.name (found (·.experiments) trees))
    ((ofTrees trees).2.filter (·.onExperiment))

theorem classifiedBy_sameTitle (trees : List Element) : ClassifiedBy SameTitle trees where
  species := by
    rw [speciesCollisions_ofTrees]
    refine (map_tell_overwritten .species _ trees).symm ▸ ?_
    exact List.forall₂_map_right_iff.mpr (List.forall₂_same.mpr fun o _ => classifies_report rfl)
  experiments := by
    rw [experimentCollisions_ofTrees]
    refine (map_tell_overwritten .experiment _ trees).symm ▸ ?_
    exact List.forall₂_map_right_iff.mpr (List.forall₂_same.mpr fun o _ => classifies_report rfl)

theorem forall₂_classifies_iff {os : List (Sourced × Sourced)} {ds : List Diagnostic}
    (h : List.Forall₂ (fun o => Classifies code (same o.1 o.2)) os ds) :
    List.Forall₂ (fun o => Classifies code (same' o.1 o.2)) os ds ↔
      ∀ o ∈ os, (same' o.1 o.2 ↔ same o.1 o.2) := by
  induction h
  case nil => simp
  case cons h _ hi => rw [List.forall₂_cons, List.forall_mem_cons, hi, h.iff]

theorem ClassifiedBy.iff (h : ClassifiedBy same trees) :
    ClassifiedBy same' trees ↔ ∀ o ∈ collisions trees, (same' o.1 o.2 ↔ same o.1 o.2) := by
  rw [collisions, List.forall_mem_append, ← forall₂_classifies_iff h.species,
    ← forall₂_classifies_iff h.experiments]
  exact ⟨fun h => ⟨h.species, h.experiments⟩, fun h => ⟨h.1, h.2⟩⟩

theorem classifiedBy_sameTree_iff :
    ClassifiedBy SameTree trees ↔
      ∀ o ∈ collisions trees, SameTitle o.1 o.2 → SameTree o.1 o.2 := by
  rw [(classifiedBy_sameTitle trees).iff]
  refine forall₂_congr fun o ho => ⟨fun h => h.mpr, fun h => ⟨fun hplace => ?_, h⟩⟩
  have ⟨ha, hb⟩ := getElem?_of_mem_collisions ho
  have hplace : o.1.place = o.2.place := hplace
  rw [SameTitle, Option.some.inj (ha.symm.trans (hplace ▸ hb))]

-- No collision is misjudged among trees with titles that differ.
theorem classifiedBy_sameTree_of_nodup
    (h : (trees.map fun t => Keyword.underscored t.nameOrKeyword).Nodup) :
    ClassifiedBy SameTree trees := by
  refine classifiedBy_sameTree_iff.mpr fun o ho htitle => ?_
  have ⟨ha, hb⟩ := getElem?_of_mem_collisions ho
  refine (List.getElem?_inj ?_ h).mp ?_
  case refine_1 => simpa using (List.getElem?_eq_some_iff.mp ha).1
  case refine_2 => simpa [ha, hb, SameTitle] using htitle

-- What replaces a declaration counts as a duplicate of it where the titles of their trees agree.
-- That sorts all replacements by whether they are within one tree if and only if no declaration
-- replaces one of another tree with such a title.
theorem collisions_by_title (trees : List Element) :
    ClassifiedBy SameTitle trees ∧
      (ClassifiedBy SameTree trees ↔
        ∀ o ∈ collisions trees, SameTitle o.1 o.2 → SameTree o.1 o.2) :=
  ⟨classifiedBy_sameTitle trees, classifiedBy_sameTree_iff⟩

def library (title : String) : Element where
  kind := .model
  name := some title
  children := [{ kind := .species, name := some "wolf" }]

-- A wolf of one library that takes the place of a wolf of another library counts as a duplicate.
theorem mistaken_for_duplicate :
    ¬ ClassifiedBy SameTree [{ kind := .model, name := some "main" }, library "shared lib",
      library "shared_lib"] := by
  intro h
  let wolf : Element := { kind := .species, name := some "wolf" }
  let previous : Sourced := ⟨wolf, library "shared_lib", 2⟩
  let current : Sourced := ⟨wolf, library "shared lib", 1⟩
  have hfound : replacements Sourced.name [previous, current] = [(previous, current)] := rfl
  have ho : (previous, current) ∈ replacements Sourced.name [previous, current] :=
    hfound ▸ List.mem_singleton_self _
  have htitle : SameTitle previous current :=
    (by decide +kernel : Keyword.underscored "shared_lib" = Keyword.underscored "shared lib")
  have hsame : SameTree previous current :=
    classifiedBy_sameTree_iff.mp h (previous, current) (List.mem_append_left _ ho) htitle
  exact absurd hsame (by decide : ¬ 2 = 1)

end Declarations
end ModelAssembly
