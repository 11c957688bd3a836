import ModelAssembly.Proofs.BundleFold
import ModelAssembly.Proofs.GraftBlocks
import ModelAssembly.Proofs.Instantiation
import ModelAssembly.Proofs.Lookups
import ModelAssembly.Proofs.Outline
/-!
Grafts in grafts. Each model that a bundle grafts, directly or within another graft, stands in the
assembled model under the path of names that leads to it. Grafting marks all that comes with a
model, so what is left on a root after all graftings is the first name of its path.

Main statements: `graftRoot?_shift` says that paths go on in a model after it was grafted;
`Bundle.laid_outcome`, by recursion on the bundle, that each path leads to the root of its own
model; `grafts_go_by_outermost_name` which name the root shows.
-/

open Relation

namespace ModelAssembly

-- Where lists correspond, so do their elements.
theorem exists_getElem?_of_forall₂ {α β : Type} {R : α → β → Prop} {l : List α} {l' : List β}
    {k : Nat} {x : α} (h : List.Forall₂ R l l') (hx : l[k]? = some x) :
    ∃ y, l'[k]? = some y ∧ R x y := by
  have hr := hx ▸ rel_getElem? h k
  generalize l'[k]? = found at hr ⊢
  cases hr
  case some hr => exact ⟨_, rfl, hr⟩

namespace Bundle

-- The bundles that are grafted, by name.
def grafted (b : Bundle) : OrderedMap String Bundle := .ofList b.grafts

-- The bundle that is grafted under the names of a path, the outermost first.
def nested? (b : Bundle) : List String → Option Bundle
  | [] => some b
  | name :: path => (b.grafted.get? name).bind (nested? · path)

end Bundle

namespace Model

variable {m g : Model} {b : Bundle} {i j start : Nat} {path path' : List String} {d : Description}

-- Where the root stands of the model that is grafted under a path, if that of `b` stands at `i`.
-- Grafts come first in what the root of a model contains, in their order.
def graftRoot? (m : Model) (b : Bundle) (i : Nat) : List String → Option Nat
  | [] => some i
  | name :: path => do
    let c ← b.grafted.get? name
    let j ← (m.microOf i)[b.grafted.keys.idxOf name]?
    graftRoot? m c j path

theorem graftRoot?_cons_eq_some_iff {name : String} : m.graftRoot? b i (name :: path) = some j ↔
    ∃ c k, b.grafted.get? name = some c ∧ (m.microOf i)[b.grafted.keys.idxOf name]? = some k ∧
      m.graftRoot? c k path = some j := by
  simp [graftRoot?, Option.bind_eq_some_iff]

-- Paths within a graft lead to the same places after it was grafted.
theorem graftRoot?_shift (hg : g.InRange)
    (hm : ∀ k, k < g.size → m.microOf (start + k) = (g.microOf k).map (· + start))
    (hi : i < g.size) :
    m.graftRoot? b (start + i) path = (g.graftRoot? b i path).map (start + ·) := by
  induction path generalizing b i
  case nil => rfl
  case cons name path ih =>
    simp only [graftRoot?, hm i hi, List.getElem?_map]
    cases b.grafted.get? name
    case none => rfl
    case some c =>
      cases hk : (g.microOf i)[b.grafted.keys.idxOf name]?
      case none => simp
      case some k =>
        have hlt := hg.micro i k (List.mem_of_getElem? hk)
        simpa [hk, Nat.add_comm k] using ih hlt

-- Roots stand one level deeper with each name of the path.
theorem level_of_graftRoot? {level : Nat → Nat}
    (hl : ∀ i, ∀ j ∈ m.microOf i, level j = level i + 1) (h : m.graftRoot? b i path = some j) :
    level j = level i + path.length := by
  induction path generalizing b i
  case nil =>
    cases h
    rfl
  case cons name path ih =>
    have ⟨_, k, _, hk, h⟩ := graftRoot?_cons_eq_some_iff.mp h
    rw [ih h, hl i k (List.mem_of_getElem? hk), List.length_cons]
    omega

namespace OwnerTree

variable (h : m.OwnerTree)

include h

theorem owns_of_graftRoot? (hj : m.graftRoot? b i path = some j) : ReflTransGen m.OwnedBy j i := by
  induction path generalizing b i
  case nil =>
    cases hj
    exact .refl
  case cons name path ih =>
    have ⟨_, k, _, hk, hj⟩ := graftRoot?_cons_eq_some_iff.mp hj
    exact (ih hj).tail ((h.micro i k).mp (List.mem_of_getElem? hk))

-- A path that goes on leads away.
theorem ne_of_graftRoot?_cons {name : String} (hj : m.graftRoot? b i (name :: path) = some j) :
    j ≠ i := by
  have ⟨_, k, _, hk, hj⟩ := graftRoot?_cons_eq_some_iff.mp hj
  have hlt := (h.lt_of_mem_microOf (List.mem_of_getElem? hk)).1
  have hle := h.le_of_owns (h.owns_of_graftRoot? hj)
  omega

-- Different paths lead to different roots.
theorem graftRoot?_inj (hj : m.graftRoot? b i path = some j)
    (hj' : m.graftRoot? b i path' = some j) : path = path' := by
  induction path generalizing b i path'
  case nil =>
    cases hj
    cases path'
    case nil => rfl
    case cons => exact absurd rfl (h.ne_of_graftRoot?_cons hj')
  case cons name path ih =>
    cases path'
    case nil =>
      cases hj'
      exact absurd rfl (h.ne_of_graftRoot?_cons hj)
    case cons name' path' =>
      obtain ⟨c, k, hc, hk, hj⟩ := graftRoot?_cons_eq_some_iff.mp hj
      obtain ⟨c', k', hc', hk', hj'⟩ := graftRoot?_cons_eq_some_iff.mp hj'
      have howned := (h.micro i k).mp (List.mem_of_getElem? hk)
      have howned' := (h.micro i k').mp (List.mem_of_getElem? hk')
      cases h.eq_of_owns howned howned' (h.owns_of_graftRoot? hj) (h.owns_of_graftRoot? hj')
      have hnodup : (m.microOf i).Nodup := (h.sorted i).imp Nat.ne_of_lt
      have hindex := (List.getElem?_inj (List.getElem?_eq_some_iff.mp hk).1 hnodup).mp
        (hk.trans hk'.symm)
      have hname : name ∈ b.grafted.keys := by
        simp [OrderedMap.mem_keys_iff, OrderedMap.contains, hc]
      cases (List.idxOf_inj hname).mp hindex
      cases hc.symm.trans hc'
      rw [ih hj hj']

end OwnerTree

-- What is written for a description that a walk comes by stands in the outline.
theorem exists_outlineLine {level : Nat → Nat} (hr : level rootIndex = 0)
    (hl : ∀ i, ∀ j ∈ m.microOf i, level j = level i + 1) (hi : i ∈ m.walk rootIndex)
    (hd : m.get? i = some d) : ∃ before after,
      m.outline = before ++ outlineLine (level i) (m.outlineHeader i d) ++ after := by
  have ⟨is, js, hw⟩ := List.append_of_mem hi
  have hblock : m.blockLines i = m.outlineHeader i d ::
      (d.members.values.filter fun x => !m.hides x).map fun x => "  " ++ outlineMember x := by
    rw [blockLines, hd]
  rw [outline_eq hr hl, hw, List.flatMap_append, List.flatMap_cons, hblock, List.map_cons,
    List.cons_append, String.join_append, String.join_cons, ← String.append_assoc]
  exact ⟨_, _, rfl⟩

end Model

namespace Bundle

open Model Assembler

variable {a : Assembler} {b b' c : Bundle} {m g : Model} {ms before after : List (String × Model)}
  {name : String} {path : List String} {i : Nat} {d : Description}

-- The roots of models in `m` are those of the bundles in `b`, each under the path that leads there.
structure Laid (b : Bundle) (m : Model) : Prop where
  root : ∀ path c, b.nested? path = some c → ∃ i d,
    m.graftRoot? b rootIndex path = some i ∧ m.get? i = some d ∧ d.isModel = true ∧
      c.models.head?.map (·.modelName) = some d.name ∧ d.graftedFrom = path.head?
  path : ∀ i d, m.get? i = some d → d.isModel = true → ∃ path c,
    b.nested? path = some c ∧ m.graftRoot? b rootIndex path = some i

-- `ms` are the models of the bundles in `gs`, all of them laid out.
def AllLaid (gs : List (String × Bundle)) (ms : List (String × Model)) : Prop :=
  List.Forall₂ (fun g x => x.1 = g.1 ∧ Graftable x.2 ∧ g.2.Laid x.2) gs ms

namespace AllLaid

variable (h : AllLaid b.grafts ms)

include h

theorem forall₂_entries : List.Forall₂ (fun c g => g.1 = c.1 ∧ Graftable g.2 ∧ c.2.Laid g.2)
    b.grafted.entries (b.request ms).grafts.entries :=
  OrderedMap.forall₂_entries_ofList (R := fun (c : Bundle) g => Graftable g ∧ c.Laid g) h

theorem exists_model (hc : b.grafted.get? name = some c) :
    ∃ before g after, (b.request ms).grafts.entries = before ++ (name, g) :: after := by
  have hentry := OrderedMap.getElem?_entries_iff.mpr ⟨hc, rfl⟩
  obtain ⟨⟨_, g⟩, hx, rfl, _⟩ := exists_getElem?_of_forall₂ h.forall₂_entries hentry
  have ⟨before, after, he, _⟩ := exists_split_of_getElem? hx
  exact ⟨before, g, after, he⟩

theorem exists_bundle (he : (b.request ms).grafts.entries = before ++ (name, g) :: after) :
    ∃ c, b.grafted.get? name = some c ∧ b.grafted.keys.idxOf name = before.length ∧
      Graftable g ∧ c.Laid g := by
  have hx : (b.request ms).grafts.entries[before.length]? = some (name, g) := by simp [he]
  obtain ⟨⟨_, c⟩, hc, rfl, hg, hlaid⟩ := exists_getElem?_of_forall₂ h.forall₂_entries.flip hx
  have ⟨hget, hindex⟩ := OrderedMap.getElem?_entries_iff.mp hc
  exact ⟨c, hget, hindex, hg, hlaid⟩

end AllLaid

-- The model `g` of the bundle `c`, where it stands in `m` after it was grafted.
structure GraftAt (b : Bundle) (m : Model) (name : String) (c : Bundle) (g : Model)
    (start : Nat) : Prop where
  get? : b.grafted.get? name = some c
  laid : c.Laid g
  inRange : g.InRange
  root : (m.microOf rootIndex)[b.grafted.keys.idxOf name]? = some start
  block : ∀ k d, g.get? k = some d → m.get? (start + k) =
    some (d.shift start (if k = rootIndex then some rootIndex else none) name)

namespace GraftAt

variable {start : Nat} (h : b.GraftAt m name c g start)

include h

theorem graftRoot?_cons : m.graftRoot? b rootIndex (name :: path) =
    (g.graftRoot? c rootIndex path).map (start + ·) := by
  have hmicro (k : Nat) (hk : k < g.size) :
      m.microOf (start + k) = (g.microOf k).map (· + start) := by
    have ⟨d, hd⟩ := get?_of_lt_size hk
    rw [microOf_of_get? hd, microOf_of_get? (h.block k d hd)]
    rfl
  have hshift : m.graftRoot? c start path = (g.graftRoot? c rootIndex path).map (start + ·) :=
    graftRoot?_shift h.inRange hmicro g.rootIndex_lt_size
  simp [graftRoot?, h.get?, h.root, hshift]

theorem exists_root (hc : b.nested? (name :: path) = some b') : ∃ i d,
    m.graftRoot? b rootIndex (name :: path) = some i ∧ m.get? i = some d ∧ d.isModel = true ∧
      b'.models.head?.map (·.modelName) = some d.name ∧ d.graftedFrom = some name := by
  have hc : c.nested? path = some b' := by simpa [nested?, h.get?] using hc
  have ⟨i, d, hi, hd, hk, hn, _⟩ := h.laid.root path b' hc
  exact ⟨start + i, _, by rw [h.graftRoot?_cons, hi]; rfl, h.block i d hd, hk, hn, rfl⟩

theorem exists_path (hd : g.get? i = some d) (hk : d.isModel = true) : ∃ path b',
    b.nested? path = some b' ∧ m.graftRoot? b rootIndex path = some (start + i) := by
  have ⟨path, b', hc, hi⟩ := h.laid.path i d hd hk
  exact ⟨name :: path, b', by simpa [nested?, h.get?] using hc, by rw [h.graftRoot?_cons, hi]; rfl⟩

end GraftAt

-- Trees of models keep their names when their files are filled in.
theorem head?_trees (ms : List (String × Model)) :
    (b.request ms).trees.head?.map (·.modelName) = b.models.head?.map (·.modelName) := by
  have hname (e : Element) : e.inheritFile.modelName = e.modelName :=
    congrArg Keyword.modelName (Element.nameOrKeyword_withFileOf none e)
  rw [request, List.head?_map, Option.map_map]
  exact congrArg (b.models.head?.map ·) (funext hname)

section

variable (h : AllLaid b.grafts ms) (run : Run a (b.request ms) m)

include h run

theorem graftAt_of_split (he : (b.request ms).grafts.entries = before ++ (name, g) :: after) :
    ∃ c, b.GraftAt m name c g (1 + sizes before) := by
  have ⟨c, hget, hindex, hg, hlaid⟩ := h.exists_bundle he
  refine ⟨c, hget, hlaid, hg.inRange, ?_, fun k d hd => ?_⟩
  · rw [hindex, microOf_of_get? (get?_rootIndex m)]
    exact run.getElem?_micro_root he
  · exact run.get?_of_grafted he hd (hg.isFinalized k d hd)

theorem exists_graftAt_of_get? (hc : b.grafted.get? name = some c) :
    ∃ g start, b.GraftAt m name c g start := by
  have ⟨before, g, after, he⟩ := h.exists_model hc
  have ⟨c', hat⟩ := graftAt_of_split h run he
  cases hc.symm.trans hat.get?
  exact ⟨g, _, hat⟩

-- What is a model, but not the model itself, was grafted.
theorem exists_graftAt_of_isModel (h0 : i ≠ rootIndex) (hd : m.get? i = some d)
    (hk : d.isModel = true) : ∃ name c g start k e, b.GraftAt m name c g start ∧
      i = start + k ∧ g.get? k = some e ∧ e.isModel = true := by
  have hi : i < run.base := by
    refine Nat.lt_of_not_le fun hle => ?_
    exact run.kind_final h0 hd ((run.isOwn_final h0 hd).mpr hle) (beq_iff_eq.mp hk)
  have hpos := Nat.pos_of_ne_zero h0
  have hbase := run.base_eq_sizes
  have hlt : i - 1 < sizes (b.request ms).grafts.entries := by omega
  have ⟨before, ⟨name, g⟩, after, k, he, hik, hlt⟩ := exists_split_of_lt_sizes hlt
  have ⟨c, hat⟩ := graftAt_of_split h run he
  have ⟨e, hek⟩ := get?_of_lt_size hlt
  have hi : i = 1 + sizes before + k := by omega
  cases hd.symm.trans (hi ▸ hat.block k e hek)
  exact ⟨name, c, g, _, k, e, hat, hi, hek, hk⟩

theorem laid_of_run : b.Laid m where
  root path b' hb := by
    cases path
    case nil =>
      cases hb
      have ⟨_, hk, ho, _⟩ := run.root_final
      have hname : b.models.head?.map (·.modelName) = some m.root.name := by
        rw [run.name_root_final, ← head?_trees ms, run.trees_eq]
        rfl
      exact ⟨rootIndex, m.root, rfl, get?_rootIndex m, beq_iff_eq.mpr hk, hname,
        Option.isNone_iff_eq_none.mp ho⟩
    case cons name path =>
      have ⟨c, hc, _⟩ := Option.bind_eq_some_iff.mp hb
      have ⟨g, start, hat⟩ := exists_graftAt_of_get? h run hc
      exact hat.exists_root hb
  path i d hd hk := by
    by_cases h0 : i = rootIndex
    case pos => exact ⟨[], b, rfl, h0 ▸ rfl⟩
    case neg =>
      have ⟨name, c, g, start, k, e, hat, hi, he, hk⟩ := exists_graftAt_of_isModel h run h0 hd hk
      exact hi ▸ hat.exists_path he hk

end

theorem graftable_of_outcome (h : (outcome a b).result = .ok m) : Graftable m := by
  have hy : Yields Graftable (assembleInto a {} b).1 := yields_assembleInto a b {}
  rw [(adds_assembleInto a b {}).1, h] at hy
  exact hy

mutual

theorem laid_outcome (a : Assembler) :
    (b : Bundle) → ∀ m, (outcome a b).result = .ok m → b.Laid m
  | ⟨primary, projectPath, modelPath, models, grafts⟩, m, h => by
    rw [outcome] at h
    have ⟨ms, hms, h⟩ := Outcome.bind_eq_ok_iff.mp h
    let b : Bundle := ⟨primary, projectPath, modelPath, models, grafts⟩
    have ⟨run⟩ : Nonempty (Run a (b.request ms) m) := exists_run h
    exact laid_of_run (b := b) (allLaid_outcomes a grafts ms hms) run

theorem allLaid_outcomes (a : Assembler) :
    (gs : List (String × Bundle)) → ∀ ms, (outcomes a gs).result = .ok ms → AllLaid gs ms
  | [], ms, h => by
    rw [outcomes] at h
    cases h
    exact .nil
  | (name, b) :: gs, ms, h => by
    rw [outcomes] at h
    have ⟨m, hm, h⟩ := Outcome.bind_eq_ok_iff.mp h
    have ⟨ms, hms, h⟩ := Outcome.bind_eq_ok_iff.mp h
    cases h
    exact .cons ⟨rfl, graftable_of_outcome hm, laid_outcome a b m hm⟩ (allLaid_outcomes a gs ms hms)

end

end Bundle

open Model

-- Each bundle within a bundle has a root in the assembled model, and all roots of models but the
-- first come from one of them. They go by the names that the outermost bundle has for its grafts,
-- whatever is between: the names of grafts in grafts are not kept.
theorem grafts_go_by_outermost_name (a : Assembler) (b : Bundle) (m : Model)
    (h : (b.assemble a).result = .ok m) :
    (∀ name path c, b.nested? (name :: path) = some c → ∃ i d before after,
      m.graftRoot? b rootIndex (name :: path) = some i ∧ m.get? i = some d ∧
      d.isModel = true ∧ c.models.head?.map (·.modelName) = some d.name ∧
      d.graftedFrom = some name ∧
      m.outline = before ++ (String.join (List.replicate (path.length + 1) "  ") ++
        (d.declaredAs.keyword ++ " " ++ d.name ++ ((m.parentName i).map (" : " ++ ·)).getD "" ++
          (" as " ++ name) ++ if d.isAbstract then " [virtual]" else "") ++ "\n") ++ after) ∧
    ∀ i d, m.get? i = some d → d.isModel = true → i ≠ rootIndex → ∃ name path c,
      b.nested? (name :: path) = some c ∧ m.graftRoot? b rootIndex (name :: path) = some i ∧
      ∀ path', m.graftRoot? b rootIndex path' = some i → path' = name :: path := by
  rw [Bundle.assemble_eq_outcome] at h
  have hlaid := Bundle.laid_outcome a b m h
  have htree := (Bundle.graftable_of_outcome h).built.ownerTree
  refine ⟨fun name path c hc => ?root, fun i d hd hk h0 => ?path⟩
  case root =>
    have ⟨i, d, hi, hd, hk, hn, hg⟩ := hlaid.root (name :: path) c hc
    have ⟨level, _, hroot, hcontent⟩ := htree.exists_depth
    have hlevel : level i = path.length + 1 := by
      rw [level_of_graftRoot? hcontent hi, hroot, List.length_cons, Nat.zero_add]
    have hwalk := htree.mem_walk_root_iff.mpr (lt_size_of_get? hd)
    have ⟨before, after, houtline⟩ := exists_outlineLine hroot hcontent hwalk hd
    rw [hlevel, outlineHeader, hk, hg] at houtline
    exact ⟨i, d, before, after, hi, hd, hk, hn, hg, houtline⟩
  case path =>
    obtain ⟨path, c, hc, hi⟩ := hlaid.path i d hd hk
    cases path
    case nil =>
      cases hi
      exact absurd rfl h0
    case cons name path =>
      exact ⟨name, path, c, hc, hi, fun path' hi' => htree.graftRoot?_inj hi' hi⟩

-- A world with a region, with a valley in it.
def valley : Bundle where
  primary := "valley"
  models := [{ kind := .model, name := some "valley" }]

def world : Bundle where
  primary := "world"
  models := [{ kind := .model, name := some "world" }]
  grafts := [("north", {
    primary := "region"
    models := [{ kind := .model, name := some "region" }]
    grafts := [("lowland", valley)] })]

theorem grafts_go_by_outermost_name_in_world : ∃ m i before after,
    (world.assemble {}).result = .ok m ∧
    m.graftRoot? world rootIndex ["north", "lowland"] = some i ∧
    m.outline = before ++ "    model valley_model : model as north\n" ++ after := by
  have hfacts : (world.assemble {}).result.toOption.map (fun m => (m.graftRoot? world rootIndex
      ["north", "lowland"], m.parentName 2, (m.get? 2).map fun d => (d.declaredAs, d.isAbstract))) =
        some (some 2, some "model", some (.model, false)) := by
    decide +kernel
  have ⟨m, hm, hfacts⟩ := Option.map_eq_some_iff.mp hfacts
  have hm := toOption_eq_some_iff.mp hm
  have ⟨hpath, hparent, hd⟩ : m.graftRoot? world rootIndex ["north", "lowland"] = some 2 ∧
      m.parentName 2 = some "model" ∧
      (m.get? 2).map (fun d => (d.declaredAs, d.isAbstract)) = some (.model, false) := by
    simpa using hfacts
  have ⟨hroots, _⟩ := grafts_go_by_outermost_name {} world m hm
  have ⟨i, d, before, after, hi, hget, _, hn, _, houtline⟩ :=
    hroots "north" ["lowland"] valley rfl
  cases hpath.symm.trans hi
  rw [hget] at hd
  have ⟨hdeclared, habstract⟩ : d.declaredAs = .model ∧ d.isAbstract = false := by simpa using hd
  have hname : d.name = "valley_model" := (Option.some.inj hn).symm
  rw [hparent, hdeclared, habstract, hname] at houtline
  exact ⟨m, 2, before, after, hm, hpath, houtline⟩

-- The valley does not go by the name that it has in its region.
theorem grafts_lose_inner_name_in_world : ∃ m, (world.assemble {}).result = .ok m ∧
    ¬ ∀ path name c i d, world.nested? (path ++ [name]) = some c →
      m.graftRoot? world rootIndex (path ++ [name]) = some i → m.get? i = some d →
        d.graftedFrom = some name := by
  have hfacts : (world.assemble {}).result.toOption.map (fun m =>
      (m.graftRoot? world rootIndex ["north", "lowland"], (m.get? 2).map (·.graftedFrom))) =
        some (some 2, some (some "north")) := by
    decide +kernel
  have ⟨m, hm, hfacts⟩ := Option.map_eq_some_iff.mp hfacts
  have ⟨hpath, hd⟩ : m.graftRoot? world rootIndex ["north", "lowland"] = some 2 ∧
      (m.get? 2).map (·.graftedFrom) = some (some "north") := by
    simpa using hfacts
  refine ⟨m, toOption_eq_some_iff.mp hm, fun hall => ?_⟩
  have ⟨d, hget, hg⟩ := Option.map_eq_some_iff.mp hd
  have hinner := hall ["north"] "lowland" valley 2 d rfl hpath hget
  exact absurd (hg.symm.trans hinner) (by decide)

end ModelAssembly
