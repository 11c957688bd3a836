import ModelAssembly.Proofs.Displacement
import ModelAssembly.Proofs.Verdict
/-!
Requests with and without their grafts. All that grafts do to the rest of a model is to take up
indices: the own descriptions of the two models are displaced, and nothing else. Nor do grafts that
are finalized have anything to do with what is reported, or with what an assembly fails for.

Main statements: `displaced_model` for linked models, `lockstep_draft` for drafts and
`lockstep_assemble_ungrafted` for whole assemblies.
-/

namespace ModelAssembly

open Description

theorem rel_getElem? {α β : Type} {R : α → β → Prop} {as : List α} {bs : List β}
    (h : List.Forall₂ R as bs) (i : Nat) : Option.Rel R as[i]? bs[i]? := by
  induction h generalizing i
  case nil => exact .none
  case cons hr _ hi =>
    cases i
    case zero => exact .some hr
    case succ i => exact hi i

-- Replacing the values of a table one by one.
theorem OrderedMap.get?_ofList_map {κ α β : Type} [DecidableEq κ] (f : α → β) (es : List (κ × α))
    (k : κ) : (ofList (es.map (Prod.map id f))).get? k = ((ofList es).get? k).map f := by
  have hlookup (es : List (κ × α)) : (es.map (Prod.map id f)).lookup k = (es.lookup k).map f := by
    induction es
    case nil => rfl
    case cons e es hi =>
      rw [List.map_cons, List.lookup_cons, List.lookup_cons, hi, Prod.map_fst, id_eq]
      split <;> rfl
  rw [get?_ofList, get?_ofList, ← List.map_reverse, hlookup]

-- `e` is `d` when `k` descriptions have come behind the root. What it contains does not matter.
def Description.DisplacedTo (k : Nat) (d e : Description) : Prop :=
  ∃ micro, e = { d.displace k with micro }

section

variable {k start owner : Nat} {origin : String} {es : List Element}

namespace DeclarationTree

mutual

theorem displacedTo_block (owner start : Nat) (h : 0 < start) :
    (t : DeclarationTree) → List.Forall₂ (DisplacedTo k) (t.block owner start origin)
      (t.block (Model.displace k owner) (start + k) origin)
  | .node _ nested => by
    have hrest := displacedTo_blockAll start (start + 1) (Nat.succ_pos start) nested
    rw [Model.displace_of_ne (Nat.ne_of_gt h), Nat.add_right_comm] at hrest
    exact .cons ⟨_, rfl⟩ hrest

theorem displacedTo_blockAll (owner start : Nat) (h : 0 < start) :
    (ts : List DeclarationTree) → List.Forall₂ (DisplacedTo k) (blockAll owner start origin ts)
      (blockAll (Model.displace k owner) (start + k) origin ts)
  | [] => .nil
  | t :: ts => by
    have hrest := displacedTo_blockAll owner (start + t.preorder.length) (Nat.add_pos_left h _) ts
    rw [Nat.add_right_comm] at hrest
    exact List.rel_append (displacedTo_block owner start h t) hrest

end

end DeclarationTree

theorem Declarations.displacedTo_block (ds : List Declaration) (h : 0 < start) :
    List.Forall₂ (DisplacedTo k) (block start ds) (block (start + k) ds) := by
  induction ds generalizing start
  case nil => exact .nil
  case cons d ds hi =>
    have hrest := hi (Nat.add_pos_left h (tree d).preorder.length)
    rw [Nat.add_right_comm] at hrest
    exact List.rel_append (DeclarationTree.displacedTo_block _ _ h (tree d)) hrest

namespace Placement

theorem named_add (h : 0 < start) : named (start + k) es =
    (named start es).map (Prod.map id (Model.displace k)) := by
  induction es generalizing start
  case nil => rfl
  case cons e es hi =>
    have hc (start : Nat) : named start (e :: es) =
        (e.nameOrKeyword, start) :: named (start + 1) es := rfl
    rw [hc, hc, List.map_cons, ← hi (Nat.succ_pos start), Prod.map_apply,
      Model.displace_of_ne (Nat.ne_of_gt h), Nat.add_right_comm]
    rfl

theorem forall₂_numbered {n : Nat} (h : 0 < start) (hn : start + es.length ≤ n) :
    List.Forall₂ (fun (x y : Nat × Element) => y = (Model.displace k x.1, x.2) ∧ x.1 < n)
      (numbered start es) (numbered (start + k) es) := by
  induction es generalizing start
  case nil => exact .nil
  case cons e es hi =>
    have hc (start : Nat) : numbered start (e :: es) = (start, e) :: numbered (start + 1) es := rfl
    rw [List.length_cons] at hn
    have hrest := hi (Nat.succ_pos start) (by omega)
    rw [Nat.succ_add] at hrest
    rw [hc, hc]
    exact .cons ⟨by rw [Model.displace_of_ne (Nat.ne_of_gt h)], by omega⟩ hrest

end Placement

end

namespace Request

-- The same request, with nothing to graft.
def ungrafted (r : Request) : Request := { r with grafts := ∅ }

-- How many descriptions are grafted.
def graftedSize (r : Request) : Nat := (Model.graftBlock 1 r.grafts.entries).length

end Request

namespace Assembler.Linking

variable {a : Assembler} {r : Request} (l₀ : Linking a r.ungrafted) (l : Linking a r)

theorem base_ungrafted : l₀.base = 1 := l₀.base_eq

theorem base_eq_graftedSize : l.base = 1 + r.graftedSize := l.base_eq

theorem declared_ungrafted : l₀.declared = l.declared := rfl

theorem size_eq : l.model.size = l₀.model.size + r.graftedSize := by
  rw [l.size_model, l₀.size_model, l.base_eq_graftedSize, l₀.base_ungrafted, Nat.add_right_comm,
    l₀.declared_ungrafted l]

-- What placement puts at an index behind the grafts, it puts there without them.
theorem displacedTo_placement {i : Nat} (hi : i ≠ Model.rootIndex) :
    Option.Rel (DisplacedTo r.graftedSize) (l₀.placement.model.get? i)
      (l.placement.model.get? (Model.displace r.graftedSize i)) := by
  have hpos := Nat.pos_of_ne_zero hi
  have hb := l.base_eq_graftedSize
  have hb₀ := l₀.base_ungrafted
  rw [Model.displace_of_ne hi, l.get?_placement_of_le (by omega), l₀.get?_placement_of_le (by omega)]
  have hindex : i + r.graftedSize - l.base = i - l₀.base := by omega
  have hblock := Declarations.displacedTo_block (k := r.graftedSize) l.declared Nat.one_pos
  rw [hindex, hb, hb₀, l₀.declared_ungrafted l]
  exact rel_getElem? hblock _

theorem get?_indices_displaced (name : String) : l.placement.indices.get? name =
    (l₀.placement.indices.get? name).map (Model.displace r.graftedSize) := by
  rw [l.indices_placement, l₀.indices_placement, l.base_eq_graftedSize, l₀.base_ungrafted,
    l₀.declared_ungrafted l, Placement.named_add Nat.one_pos, OrderedMap.get?_ofList_map]

theorem speciesParent_displaced (d : Description) (micro : List Nat) :
    l.placement.speciesParent { d.displace r.graftedSize with micro } =
      (l₀.placement.speciesParent d).displace r.graftedSize := by
  have hreg : l.placement.model.registry = l₀.placement.model.registry :=
    l.registry_placement.trans l₀.registry_placement.symm
  have hfacets : ({ d.displace r.graftedSize with micro } : Description).facets = d.facets := rfl
  unfold Placement.speciesParent
  rw [hfacets]
  cases d.facets.get? Keyword.parent
  case none => rfl
  case some requested =>
    simp only [l₀.get?_indices_displaced l, hreg]
    cases l₀.placement.indices.get? requested
    case some i => rfl
    case none =>
      simp only [Option.map_none]
      split <;> rfl

theorem experimentParent_displaced (d : Description) (micro : List Nat) :
    l.placement.experimentParent { d.displace r.graftedSize with micro } =
      (l₀.placement.experimentParent d).displace r.graftedSize := by
  have hfacets : ({ d.displace r.graftedSize with micro } : Description).facets = d.facets := rfl
  have hexp (i : Nat) (hi : i ≠ Model.rootIndex) :
      (l.placement.model.get? (Model.displace r.graftedSize i)).any (·.isExperiment) =
        (l₀.placement.model.get? i).any (·.isExperiment) := by
    have hrel := l₀.displacedTo_placement l hi
    generalize l.placement.model.get? _ = e at hrel
    generalize l₀.placement.model.get? i = d at hrel
    cases hrel
    case none => rfl
    case some h =>
      obtain ⟨_, he⟩ := h
      rw [he]
      rfl
  unfold Placement.experimentParent
  rw [hfacets]
  cases d.facets.get? Keyword.parent
  case none => rfl
  case some requested =>
    simp only [Option.bind_some, l₀.get?_indices_displaced l]
    cases hi : l₀.placement.indices.get? requested
    case none => rfl
    case some i =>
      obtain ⟨hle, _⟩ := l₀.get?_indices hi
      have hne : i ≠ Model.rootIndex := Nat.ne_of_gt (Nat.lt_of_lt_of_le l₀.base_pos hle)
      simp only [Option.map_some, Option.filter_some, hexp i hne]
      cases (l₀.placement.model.get? i).any (·.isExperiment) <;> rfl

theorem parentLink_displaced (d : Description) (micro : List Nat) :
    l.placement.parentLink { d.displace r.graftedSize with micro } =
      (l₀.placement.parentLink d).displace r.graftedSize := by
  have hkind : ({ d.displace r.graftedSize with micro } : Description).isExperiment =
      d.isExperiment := rfl
  unfold Placement.parentLink
  rw [hkind, l₀.experimentParent_displaced l, l₀.speciesParent_displaced l]
  split <;> rfl

-- Without grafts, a linked model is the same but for indices.
theorem displaced_model : Model.Displaced r.graftedSize l₀.model l.model where
  registry := l.registry_model.trans l₀.registry_model.symm
  size := l₀.size_eq l
  get? i d hd := by
    by_cases h0 : i = Model.rootIndex
    case pos =>
      have hprimary : l.primary = l₀.primary := by
        have ht : l.primary :: l.imports = l₀.primary :: l₀.imports :=
          l.trees_eq.symm.trans l₀.trees_eq
        exact (List.cons.inj ht).1
      rw [h0, Model.get?_rootIndex] at hd
      cases hd
      rw [h0, Model.displace_rootIndex, Model.get?_rootIndex, l.root_model, l₀.root_model, hprimary]
      exact ⟨_, rfl⟩
    case neg =>
      have hpos := Nat.pos_of_ne_zero h0
      have hb := l.base_eq_graftedSize
      have hb₀ := l₀.base_ungrafted
      have hle₀ : l₀.base ≤ i := by omega
      have hle : l.base ≤ Model.displace r.graftedSize i := by
        rw [Model.displace_of_ne h0]
        omega
      have hrel := l₀.displacedTo_placement l h0
      rw [l₀.model_eq_map, Model.get?_mapDescriptions] at hd
      rw [l.model_eq_map, Model.get?_mapDescriptions]
      have ⟨d₀, hd₀, hd⟩ := Option.map_eq_some_iff.mp hd
      rw [if_pos hle₀] at hd
      rw [hd₀] at hrel
      generalize l.placement.model.get? _ = e at hrel
      cases hrel
      case some h =>
        have ⟨micro, he⟩ := h
        refine ⟨micro, ?_⟩
        rw [Option.map_some, if_pos hle, he, ← hd, Placement.link, l₀.parentLink_displaced l]
        rfl
  isOwn i d h0 hi hd := by
    have hlt : i < l.base := by
      have hb := l.base_eq_graftedSize
      omega
    rw [l.get?_of_lt h0 hlt] at hd
    exact Model.isOwn_of_mem_graftBlock (List.mem_of_getElem? hd)

open Outcome

theorem lockstep_populate :
    Lockstep (fun x y => x = l₀.complemented ∧ y = l.complemented ∧
        Model.Displaced r.graftedSize x y)
      (populate l₀.start r.ungrafted (Declarations.ofTrees r.trees).1)
      (populate l.start r (Declarations.ofTrees r.trees).1) := by
  have hnodes : List.Forall₂ (fun (x y : Nat × Element) =>
      y = (Model.displace r.graftedSize x.1, x.2) ∧ x.1 < l₀.model.size)
      l₀.placement.nodes l.placement.nodes := by
    rw [l₀.nodes_placement, l.nodes_placement, l.base_eq_graftedSize, l₀.base_ungrafted,
      l₀.declared_ungrafted l]
    refine Placement.forall₂_numbered Nat.one_pos ?_
    rw [l₀.size_model, l₀.base_ungrafted, l₀.declared_ungrafted l]
  have hadd : Lockstep (Model.Displaced r.graftedSize)
      (l₀.model.addOwnMembers (Declarations.ofTrees r.trees).1.members l₀.placement.nodes)
      (l.model.addOwnMembers (Declarations.ofTrees r.trees).1.members l.placement.nodes) :=
    (l₀.displaced_model l).lockstep_addOwnMembers hnodes
  have hpopulate : populate l₀.start r.ungrafted (Declarations.ofTrees r.trees).1 = _ :=
    l₀.populate_eq
  rw [l.populate_eq, hpopulate]
  refine .report_bind (hadd.with_results.mono fun x y ⟨hd, hx, hy⟩ => ?_)
  exact ⟨Except.ok.inj (hx.symm.trans l₀.result_addOwnMembers),
    Except.ok.inj (hy.symm.trans l.result_addOwnMembers), hd⟩

theorem inRange_ungrafted : l₀.model.InRange :=
  l₀.inRange_model fun _ hm => absurd hm List.not_mem_nil

section

open Model

variable (hg : ∀ g ∈ r.grafts.entries, g.2.InRange) {n m : Model} {kind : DescriptionKind}

include hg

-- The hierarchies of the two models have the same order.
theorem exists_linearized_displaced (hk : kind ≠ .model) (hn : Changed Kept l₀.model n)
    (hm : Changed Kept l.model m) (h : Displaced r.graftedSize n m) :
    ∃ n' m' order reports, n.linearize kind = ⟨.ok (n', order), reports⟩ ∧
      m.linearize kind = ⟨.ok (m', order.map (Model.displace r.graftedSize)), reports⟩ ∧
      Changed Kept l₀.model n' ∧ Changed Kept l.model m' ∧ Displaced r.graftedSize n' m' ∧
      (∀ i ∈ order, l₀.model.isKin kind i = true) ∧
      ∀ i ∈ order.map (Model.displace r.graftedSize), l.model.isKin kind i = true := by
  have hin₀ := l₀.inRange_ungrafted
  have hin := l.inRange_model hg
  have hsn : Changed SameKin l₀.model n := hn.mono fun _ _ h => h.1
  have hsm : Changed SameKin l.model m := hm.mono fun _ _ h => h.1
  have hb := l.base_eq_graftedSize
  have hwn : n.walk rootIndex = rootIndex :: List.range' 1 (l₀.model.size - 1) := by
    rw [walk_of_changed hsn, l₀.walk_model, l₀.base_ungrafted]
    rfl
  have hwm : m.walk rootIndex = rootIndex ::
      ((graftRoots 1 r.grafts.entries).flatMap (l.model.walkTo (l.model.size - 1)) ++
        List.range' (1 + r.graftedSize) (l₀.model.size - 1)) := by
    have hsize := l₀.size_eq l
    have hlen : l.model.size - (1 + r.graftedSize) = l₀.model.size - 1 := by omega
    rw [walk_of_changed hsm, l.walk_model, hb, hlen]
  have hgrafted (i : Nat) (hi : i ∈ (graftRoots 1 r.grafts.entries).flatMap
      (l.model.walkTo (l.model.size - 1))) : 0 < i ∧ i ≤ r.graftedSize := by
    obtain ⟨h0, hlt⟩ := l.lt_base_of_mem_walkTo (fun _ _ _ => rfl) hg hi
    exact ⟨h0, by omega⟩
  have hroot : n.isKin kind rootIndex = false := by
    have hne : ¬ l₀.model.root.kind = kind := fun he => hk (he ▸ l₀.kind_root)
    rw [isKin_of_changed hsn]
    simp [isKin, get?_rootIndex, hne]
  obtain ⟨n', m', order, reports, hen, hem, hd⟩ := h.linearize hwn hwm hgrafted hroot
    (l₀.linearizable_of_kept (l₀.walk_of_kept hin₀ hn) hn)
    (l.linearizable_of_kept (l.walk_of_kept hin hm) hm)
  obtain ⟨_, _, _, hen', hkn, _, hmemn⟩ := l₀.exists_linearized hin₀ kind hn
  obtain ⟨_, _, _, hem', hkm, _, hmemm⟩ := l.exists_linearized hin kind hm
  cases hen.symm.trans hen'
  cases hem.symm.trans hem'
  exact ⟨n', m', order, reports, hen, hem, hkn, hkm, hd, fun i => (hmemn i).mp,
    fun i => (hmemm i).mp⟩

theorem exists_mergeSpecies_displaced
    (h : Displaced r.graftedSize l₀.complemented l.complemented) :
    ∃ n m order reports, mergeSpecies l₀.complemented = ⟨.ok (n, order), reports⟩ ∧
      mergeSpecies l.complemented =
        ⟨.ok (m, order.map (Model.displace r.graftedSize)), reports⟩ ∧
      Displaced r.graftedSize n m := by
  have inherited {r : Request} (l : Linking a r) :
      l.complemented.inherit rootIndex = .ok (l.complemented.mergeAt rootIndex) := by
    have ⟨d, hd, hk⟩ := l.kept_complemented.get? (get?_rootIndex l.model)
    exact inherit_eq hd (hk.2.trans l.isFinalized_root)
  have ⟨n, m, species, reports, hen, hem, hn, hm, hd, hspecies₀, hspecies⟩ :=
    l₀.exists_linearized_displaced l hg (by decide : DescriptionKind.species ≠ .model)
      (l₀.kept_complemented.kept_trans (changed_mergeAt _ rootIndex))
      (l.kept_complemented.kept_trans (changed_mergeAt _ rootIndex)) h.mergeAt
  have hmerged : Displaced r.graftedSize (species.foldl mergeAt n)
      ((species.map (Model.displace r.graftedSize)).foldl mergeAt m) := hd.foldl_mergeAt
  have ⟨n', m', order, reports', hen', hem', _, _, hd', _, _⟩ :=
    l₀.exists_linearized_displaced l hg (by decide : DescriptionKind.experiment ≠ .model)
      (hn.kept_trans changed_foldl_mergeAt) (hm.kept_trans changed_foldl_mergeAt) hmerged
  refine ⟨n', m', order, reports ++ reports', ?_, ?_, hd'⟩
  · rw [mergeSpecies, inherited l₀, Outcome.ofModel_ok, pure_bind, Outcome.bind_of_eq hen]
    simp only [l₀.inheritAll_eq hn hspecies₀, pure_bind, hen']
  · rw [mergeSpecies, inherited l, Outcome.ofModel_ok, pure_bind, Outcome.bind_of_eq hem]
    simp only [l.inheritAll_eq hm hspecies, pure_bind, hem']

-- The drafts of the two requests, and the experiments that are judged in them.
structure DraftedBeside (x y : Model × List Nat) : Prop where
  displaced : Displaced r.graftedSize x.1 y.1
  order : y.2 = x.2.map (Model.displace r.graftedSize)
  ungrafted : l₀.Drafted x.1 x.2
  grafted : l.Drafted y.1 y.2

-- Once everything is linked, drafting goes through for both alike.
theorem exists_drafted_displaced (h : Displaced r.graftedSize l₀.complemented l.complemented) :
    ∃ n m x y order reports, mergeSpecies l₀.complemented = ⟨.ok (n, order), reports⟩ ∧
      mergeSpecies l.complemented =
        ⟨.ok (m, order.map (Model.displace r.graftedSize)), reports⟩ ∧
      a.finish (order.foldl settleAt n) = pure x ∧
      a.finish ((order.map (Model.displace r.graftedSize)).foldl settleAt m) = pure y ∧
      l₀.DraftedBeside l (x, order) (y, order.map (Model.displace r.graftedSize)) := by
  have hin₀ := l₀.inRange_ungrafted
  have hin := l.inRange_model hg
  have ⟨n, m, order, reports, hen, hem, hd⟩ := l₀.exists_mergeSpecies_displaced l hg h
  have ⟨_, x, _, _, hen', hx, hdx, _⟩ := l₀.exists_drafted hin₀
  have ⟨_, y, _, _, hem', hy, hdy, _⟩ := l.exists_drafted hin
  cases hen.symm.trans hen'
  cases hem.symm.trans hem'
  have ⟨_, _, _, hen', hkn, _, hxn⟩ := l₀.exists_mergeSpecies hin₀
  have ⟨_, _, _, hem', hkm, _, hxm⟩ := l.exists_mergeSpecies hin
  cases hen.symm.trans hen'
  cases hem.symm.trans hem'
  have ⟨hrn, hon⟩ := l₀.root_settled hkn fun i => (hxn i).mp
  have ⟨hrm, hom⟩ := l.root_settled hkm fun i => (hxm i).mp
  have ⟨_, htx⟩ := finish_eq_ok (hrn ▸ hon) (congrArg Outcome.result hx)
  have ⟨_, hty⟩ := finish_eq_ok (hrm ▸ hom) (congrArg Outcome.result hy)
  have hsettled : Displaced r.graftedSize (order.foldl settleAt n)
      ((order.map (Model.displace r.graftedSize)).foldl settleAt m) := hd.foldl_settleAt
  have hdisplaced : Displaced r.graftedSize x y := by
    rw [htx, hty, hsettled.hasSchedule_eq]
    split
    case isTrue => exact hsettled.withScheduler.of_types _ _
    case isFalse => exact hsettled.of_types _ _
  exact ⟨n, m, x, y, order, reports, hen, hem, hx, hy, hdisplaced, rfl, hdx, hdy⟩

theorem lockstep_draft : Lockstep (l₀.DraftedBeside l) (a.draft r.ungrafted) (a.draft r) := by
  have hprimary : l₀.primary = l.primary :=
    (List.cons.inj (l₀.trees_eq.symm.trans l.trees_eq)).1
  rw [draft_eq_populated, draft_eq_populated, l₀.populated_eq, l.populated_eq, hprimary]
  simp only [bind_assoc]
  refine .bind (.self _) fun _ _ _ => .report_bind ?_
  refine (l₀.lockstep_populate l).bind fun n m hnm => ?_
  obtain ⟨rfl, rfl, hd⟩ := hnm
  obtain ⟨n, m, x, y, order, reports, hen, hem, hx, hy, hbeside⟩ :=
    l₀.exists_drafted_displaced l hg hd
  rw [Outcome.bind_of_eq hen, Outcome.bind_of_eq hem, hx, hy]
  exact .ok hbeside

variable {l₀ l} {x y : Model × List Nat} (h : l₀.DraftedBeside l x y)
  (hfin : ∀ g ∈ r.grafts.entries, ∀ i d, g.2.get? i = some d → d.isFinalized = true)

include h

theorem DraftedBeside.ownSpecies_eq :
    y.1.ownSpecies = x.1.ownSpecies.map (Model.displace r.graftedSize) := by
  have hnone (g) (hm : g ∈ r.ungrafted.grafts.entries) : g.2.InRange :=
    absurd hm List.not_mem_nil
  have hb := l.base_eq_graftedSize
  have hsize := h.displaced.size
  have hlen : y.1.size - l.base = x.1.size - 1 := by omega
  have hkin : (fun i => y.1.isKin .species (Model.displace r.graftedSize i)) =
      x.1.isKin .species := funext fun _ => h.displaced.isKin
  rw [h.grafted.ownSpecies_eq hg, h.ungrafted.ownSpecies_eq hnone, hlen, hb, l₀.base_ungrafted,
    ← map_displace_range' 1 _ Nat.one_pos, List.filter_map, Function.comp_def, hkin]

include hfin

-- Validating the two finds the same.
theorem DraftedBeside.lockstep_validate :
    Lockstep (Displaced r.graftedSize) (validate x.1 x.2) (validate y.1 y.2) := by
  have hnone (g) (hm : g ∈ r.ungrafted.grafts.entries) : False := List.not_mem_nil hm
  have hjudge : forM y.2 y.1.judge = forM x.2 x.1.judge := by
    rw [h.order]
    refine h.displaced.forM_judge_eq fun i hi => ?_
    exact (h.ungrafted.le_of_isKin (by decide) (h.ungrafted.mem_experiments.mp hi)).2
  have hspecies : y.1.ownSpecies.flatMap y.1.speciesReports =
      x.1.ownSpecies.flatMap x.1.speciesReports := by
    rw [h.ownSpecies_eq hg, List.flatMap_map]
    refine List.flatMap_congr fun i hi => ?_
    have hk : x.1.isKin .species i = true :=
      (h.ungrafted.mem_ownSpecies fun g hm => (hnone g hm).elim).mp hi
    rw [← problemsAt_of_species hk, ← problemsAt_of_species (h.displaced.isKin.trans hk),
      h.displaced.problemsAt_eq]
  obtain ⟨micro, hr⟩ := h.displaced.root
  have hactions : y.1.root.abstractActions = x.1.root.abstractActions := by rw [hr]; rfl
  have hlacks : y.1.root.lacksAction = x.1.root.lacksAction := by rw [hr]; rfl
  rw [validate, validate, hjudge,
    h.ungrafted.finalizeAll_eq (fun g hm => (hnone g hm).elim) fun g hm => (hnone g hm).elim,
    h.grafted.finalizeAll_eq hfin hg, hspecies, hactions, hlacks]
  refine .bind (.self _) fun _ _ _ => .bind (.ok (R := fun s t =>
    Displaced r.graftedSize s.1 t.1 ∧ t.2 = s.2) ⟨h.displaced.close, rfl⟩) ?_
  rintro ⟨n, passed⟩ ⟨m, passed'⟩ ⟨hd, hp⟩
  have hp : passed' = passed := hp
  subst hp
  cases passed'
  case true => exact .pure hd
  case false =>
    have hname : m.name = n.name := hd.name
    simp only [Bool.false_eq_true, if_false, hname]
    exact .error

end

end Assembler.Linking

namespace Assembler

open Model Outcome

variable {a : Assembler} {r : Request}

-- Finalized grafts have nothing to do with what is reported of the rest of a model, nor with what
-- an assembly fails for.
theorem lockstep_assemble_ungrafted (hg : ∀ g ∈ r.grafts.entries, g.2.InRange)
    (hfin : ∀ g ∈ r.grafts.entries, ∀ i d, g.2.get? i = some d → d.isFinalized = true) :
    Lockstep (Displaced r.graftedSize) (a.assemble r.ungrafted) (a.assemble r) := by
  have hnone (g) (hm : g ∈ r.ungrafted.grafts.entries) : False := List.not_mem_nil hm
  rw [assemble_eq_draft hg, assemble_eq_draft fun g hm => (hnone g hm).elim]
  cases ht : r.trees
  case nil =>
    have ht₀ : r.ungrafted.trees = [] := ht
    rw [draft, draft, ht, ht₀]
    exact .error
  case cons primary imports =>
    obtain ⟨l⟩ := nonempty_linking a ht fun g hm => hfin g hm _ _ (get?_rootIndex g.2)
    obtain ⟨l₀⟩ := nonempty_linking a (r := r.ungrafted) ht fun g hm => (hnone g hm).elim
    exact (l₀.lockstep_draft l hg).bind fun x y h => h.lockstep_validate hg hfin

end Assembler

end ModelAssembly
