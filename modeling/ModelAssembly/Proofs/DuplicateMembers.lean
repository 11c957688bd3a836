import ModelAssembly.Proofs.NamedParents
import ModelAssembly.Proofs.Replacements
/-!
Duplicate members: what is reported where a declaration has several members of one role and name.
The last of them stays, and each but the first is reported as a duplicate of the one before it if
the two carry the same mark of origin. Only global members are given that mark, but it is a facet
that every member may have.

Main statements: `addMembers_eq` for one description; `duplicate_members_by_origin` for all that is
declared; `last_age_told` has a duplicate that is reported, `duplicate_untold` one of which nothing
is said.
-/

open ModelAssembly.OrderedMap

namespace ModelAssembly

theorem Member.length_declaredIn (e : Element) : (declaredIn e).length = e.members.length := by
  rw [declaredIn, List.length_filterMap_eq_countP, List.countP_eq_length]
  intro x hx
  simpa [ofElement?] using (List.mem_filter.mp hx).2

namespace Description

@[simp]
theorem withMembers_nil (d : Description) : d.withMembers [] = d := rfl

theorem withMembers_cons (d : Description) (x : Member) (ms : List Member) :
    d.withMembers (x :: ms) = (d.withMembers [x]).withMembers ms := rfl

-- What there is to say of members, each with the one that it replaces in `d`.
def tellOf (d : Description) (os : List (Member × Member)) : List Diagnostic :=
  (os.filter fun o => o.1.origin = o.2.origin).map fun o => d.duplicateMember o.1 o.2

-- What there is to say of `ms` if these are all members of `d`.
def duplicateMembers (d : Description) (ms : List Member) : List Diagnostic :=
  d.tellOf (replacements Member.key ms)

theorem tellOf_append (d : Description) (os ps : List (Member × Member)) :
    d.tellOf (os ++ ps) = d.tellOf os ++ d.tellOf ps := by
  rw [tellOf, List.filter_append, List.map_append, tellOf, tellOf]

theorem toList_memberCollision (d : Description) (x : Member) :
    (d.memberCollision x).toList = d.tellOf ((d.members.get? x.key).map (·, x)).toList := by
  rw [memberCollision]
  cases d.members.get? x.key
  case none => rfl
  case some previous =>
    by_cases h : previous.origin = x.origin <;> simp [tellOf, h]

end Description

namespace Model

variable {m : Model} {i : Nat} {d : Description} {ms : List Member}

theorem addMember_eq (hd : m.get? i = some d) (ho : d.isFinalized = false) (x : Member) :
    m.addMember i x =
      ⟨.ok (m.alter i (·.withMembers [x])), (d.memberCollision x).toList⟩ := by
  have hget : m.get i = .ok d := get_eq_ok_iff.mpr hd
  have hadd : d.addMember x = .ok (d.withMembers [x]) := Description.edit_of_open ho _
  simp only [addMember, hget, hadd, Outcome.ofModel_ok, pure_bind, Outcome.report_bind]
  rw [set_eq_alter hd fun d => d.withMembers [x]]
  simp

theorem alter_withMembers_cons (m : Model) (i : Nat) (x : Member) (ms : List Member) :
    m.alter i (·.withMembers (x :: ms)) =
      (m.alter i (·.withMembers [x])).alter i (·.withMembers ms) := by
  rw [alter, alter, alter, mapDescriptions_mapDescriptions]
  refine mapDescriptions_congr fun j e _ => ?_
  by_cases hj : j = i <;> simp [hj, Description.withMembers_cons e x ms]

-- Members that are added to an open description, and what is said of those that replace another.
theorem addMembers_eq (hd : m.get? i = some d) (ho : d.isFinalized = false) (ms : List Member) :
    m.addMembers i ms = ⟨.ok (m.alter i (·.withMembers ms)),
      d.tellOf ((d.members.overwrites (ms.map fun x => (x.key, x))).map Prod.snd)⟩ := by
  induction ms generalizing m d
  case nil =>
    have hm : m.alter i (·.withMembers []) = m := mapDescriptions_id fun j e _ => by simp
    rw [hm]
    rfl
  case cons x ms hi =>
    have hd' : (m.alter i (·.withMembers [x])).get? i = some (d.withMembers [x]) := by simp [hd]
    rw [addMembers, List.foldlM_cons, Outcome.bind_of_eq (addMember_eq hd ho x), ← addMembers,
      hi hd' ho, ← alter_withMembers_cons, List.map_cons, overwrites, List.map_append,
      Description.tellOf_append, Description.toList_memberCollision]
    cases d.members.get? x.key <;> rfl

-- The description at `i` is open and has no members.
def IsBlank (m : Model) (i : Nat) : Prop :=
  ∃ d, m.get? i = some d ∧ d.isFinalized = false ∧ d.members = ∅

-- What there is to say of `ms` if these are all members of the description at `i`.
def duplicateMembers (m : Model) (i : Nat) (ms : List Member) : List Diagnostic :=
  ((m.get? i).map (·.duplicateMembers ms)).getD []

theorem addMembers_of_isBlank (h : m.IsBlank i) (ms : List Member) :
    m.addMembers i ms = ⟨.ok (m.alter i (·.withMembers ms)), m.duplicateMembers i ms⟩ := by
  have ⟨d, hd, ho, he⟩ := h
  have hreplaced : (d.members.overwrites (ms.map fun x => (x.key, x))).map Prod.snd =
      replacements Member.key ms := by
    rw [he, ← overwritten, overwritten_map, List.map_map]
    exact List.map_id _
  rw [addMembers_eq hd ho, hreplaced, duplicateMembers, hd]
  rfl

theorem get?_alter_of_ne {j : Nat} {f : Description → Description} (h : j ≠ i) :
    (m.alter i f).get? j = m.get? j := by
  simp [h]

-- Members that are added to one blank description after the other.
theorem diagnostics_foldlM_addMembers {ws : List (Nat × List Member)}
    (hb : ∀ w ∈ ws, m.IsBlank w.1) (hn : (ws.map Prod.fst).Nodup) :
    (ws.foldlM (fun (m : Model) w => m.addMembers w.1 w.2) m).diagnostics =
      ws.flatMap fun w => m.duplicateMembers w.1 w.2 := by
  induction ws generalizing m
  case nil => rfl
  case cons w ws hi =>
    have ⟨hfirst, hn⟩ := List.nodup_cons.mp hn
    -- The descriptions that come later are as they were.
    have hlater (v) (hv : v ∈ ws) :
        (m.alter w.1 (·.withMembers w.2)).get? v.1 = m.get? v.1 :=
      get?_alter_of_ne fun he => hfirst (he ▸ List.mem_map_of_mem hv)
    have hb' (v) (hv : v ∈ ws) : (m.alter w.1 (·.withMembers w.2)).IsBlank v.1 := by
      rw [IsBlank, hlater v hv]
      exact hb v (List.mem_cons_of_mem w hv)
    have hrest : ws.flatMap (fun v => (m.alter w.1 (·.withMembers w.2)).duplicateMembers v.1 v.2) =
        ws.flatMap fun v => m.duplicateMembers v.1 v.2 :=
      List.flatMap_congr fun v hv => by rw [duplicateMembers, hlater v hv, duplicateMembers]
    rw [List.foldlM_cons, Outcome.bind_of_eq (addMembers_of_isBlank (hb w List.mem_cons_self) _),
      hi hb' hn, hrest]
    rfl

theorem diagnostics_addOwnMembers {nodes : List (Nat × Element)} (globals : List Member)
    (hr : m.IsBlank rootIndex) (hb : ∀ n ∈ nodes, m.IsBlank n.1)
    (hn : (rootIndex :: nodes.map Prod.fst).Nodup) :
    (m.addOwnMembers globals nodes).diagnostics = m.duplicateMembers rootIndex globals ++
      nodes.flatMap fun n => m.duplicateMembers n.1 (Member.declaredIn n.2) := by
  let ws := (rootIndex, globals) :: nodes.map fun n => (n.1, Member.declaredIn n.2)
  have hall : m.addOwnMembers globals nodes =
      ws.foldlM (fun (m : Model) w => m.addMembers w.1 w.2) m := by
    simp only [ws, List.foldlM_cons, List.foldlM_map]
    rfl
  have hblank (w) (hw : w ∈ ws) : m.IsBlank w.1 := by
    cases List.mem_cons.mp hw
    case inl h => exact h ▸ hr
    case inr h =>
      have ⟨n, hm, h⟩ := List.mem_map.mp h
      exact h ▸ hb n hm
  have hfst : ws.map Prod.fst = rootIndex :: nodes.map Prod.fst := by
    simp [ws]
  rw [hall, diagnostics_foldlM_addMembers hblank (hfst ▸ hn), List.flatMap_cons, List.flatMap_map]

end Model

-- How many roles and names there are among `ms`.
def keyCount (ms : List Member) : Nat := (ms.map Member.key).toFinset.card

-- `d` has the last one of each role and name among `ms`, and `reports` tell of those that replace
-- one with the same mark of origin.
structure Description.Told (d : Description) (ms : List Member) (reports : List Diagnostic) :
    Prop where
  kept : ∀ k, d.members.get? k = lastOf Member.key k ms
  reports_eq : reports = d.duplicateMembers ms
  errors : ∀ report ∈ reports, report.severity = .error ∧ report.code = some .duplicateMember
  -- All duplicates are told of if and only if no mark of origin sets one apart.
  count : reports.length + keyCount ms = ms.length ↔
    ∀ o ∈ replacements Member.key ms, o.1.origin = o.2.origin

namespace Description

variable {d : Description} {ms : List Member} {reports : List Diagnostic}

theorem told_withMembers (he : d.members = ∅) (ms : List Member) :
    (d.withMembers ms).Told ms (d.duplicateMembers ms) where
  kept k := by
    have h : (d.withMembers ms).members = ofList (ms.map fun x => (x.key, x)) := by
      rw [withMembers, he, ofList_eq_insertAll]
    rw [h, get?_ofList_keyed]
    exact Option.map_id'
  reports_eq := rfl
  errors report h := by
    obtain ⟨o, _, rfl⟩ := List.mem_map.mp h
    exact ⟨rfl, rfl⟩
  count := by
    have hall := length_replacements Member.key ms
    rw [duplicateMembers, tellOf, List.length_map, keyCount, ← hall, Nat.add_right_cancel_iff,
      List.length_filter_eq_length_iff]
    simp

-- Duplicates are all told of where no member has a mark of its own.
theorem Told.count_of_unmarked (h : d.Told ms reports)
    (hms : ∀ x ∈ ms, x.facets.get? Keyword.origin = none) :
    reports.length + keyCount ms = ms.length := by
  refine h.count.mpr fun o ho => ?_
  have ⟨hx, hy⟩ := mem_of_mem_replacements ho
  exact (hms o.1 hx).trans (hms o.2 hy).symm

end Description

namespace Assembler.Linking

open Declarations

variable {a : Assembler} {r : Request} (l : Linking a r) {n : Nat × Element}

theorem isBlank_root : l.model.IsBlank Model.rootIndex :=
  ⟨l.model.root, Model.get?_rootIndex _, l.root_model ▸ rfl, l.root_model ▸ rfl⟩

-- A description that is placed is blank, and gets what is declared under its declaration.
theorem told_of_mem_nodes (h : n ∈ l.placement.nodes) :
    l.model.IsBlank n.1 ∧ ∃ d, l.complemented.get? n.1 = some d ∧
      d.Told (Member.declaredIn n.2) (l.model.duplicateMembers n.1 (Member.declaredIn n.2)) := by
  have ⟨k, hi, he⟩ := Placement.mem_numbered.mp (l.nodes_placement ▸ h)
  have hle : l.base ≤ n.1 := hi ▸ Nat.le_add_right ..
  have hlt : n.1 < l.model.size := by
    rw [hi, l.size_model]
    exact Nat.add_lt_add_left (List.getElem?_eq_some_iff.mp he).1 _
  have ⟨d, hd⟩ := Model.get?_of_lt_size hlt
  have hf := (l.fresh_of_le hle hd).1
  have hown : l.ownMembers n.1 = Member.declaredIn n.2 := by
    rw [ownMembers, hi, Nat.add_sub_cancel_left, he]
    rfl
  refine ⟨⟨d, hd, hf.isFinalized, hf.members⟩, d.withMembers (Member.declaredIn n.2), ?get, ?told⟩
  case get => rw [get?_complemented hle hd, hown]
  case told =>
    rw [Model.duplicateMembers, hd]
    exact Description.told_withMembers hf.members _

theorem addOwnMembers_eq :
    l.model.addOwnMembers (ofTrees r.trees).1.members l.placement.nodes = ⟨.ok l.complemented,
      l.model.duplicateMembers Model.rootIndex (ofTrees r.trees).1.members ++
        l.placement.nodes.flatMap fun n =>
          l.model.duplicateMembers n.1 (Member.declaredIn n.2)⟩ := by
  have hindices : (Model.rootIndex :: l.placement.nodes.map Prod.fst).Nodup := by
    rw [l.nodes_placement, Placement.map_fst_numbered, List.nodup_cons]
    refine ⟨fun h => ?_, List.nodup_range' ..⟩
    have hle := (List.mem_range'_1.mp h).1
    exact absurd l.base_pos (Nat.not_lt.mpr hle)
  refine Outcome.ext l.result_addOwnMembers ?_
  exact Model.diagnostics_addOwnMembers _ l.isBlank_root
    (fun n hn => (l.told_of_mem_nodes hn).1) hindices

end Assembler.Linking

-- Of the members of each placed declaration, the last of each role and name stays, and each one
-- that replaces another is reported with it if the two carry the same mark of origin. So one report
-- comes with each replacement if and only if no member of the declaration has a mark that another
-- member of its role and name, the last before it, does not have.
open Declarations in
theorem duplicate_members_by_origin {a : Assembler} {r : Request} (l : a.Linking r) :
    ∃ reports, l.model.addOwnMembers (ofTrees r.trees).1.members l.placement.nodes =
        ⟨.ok l.complemented,
          l.model.root.duplicateMembers (ofTrees r.trees).1.members ++ reports.flatten⟩ ∧
      l.placement.nodes.map Prod.snd = placed (ofTrees r.trees).1.all ∧
      List.Forall₂ (fun n rs =>
        (Member.declaredIn n.2).length = n.2.members.length ∧
          ∃ d, l.complemented.get? n.1 = some d ∧ d.Told (Member.declaredIn n.2) rs)
        l.placement.nodes reports := by
  refine ⟨l.placement.nodes.map fun n => l.model.duplicateMembers n.1 (Member.declaredIn n.2),
    ?outcome, ?nodes, ?each⟩
  case outcome =>
    rw [l.addOwnMembers_eq, ← List.flatMap_def, Model.duplicateMembers, Model.get?_rootIndex]
    rfl
  case nodes =>
    rw [l.nodes_placement, Placement.map_snd_numbered]
    rfl
  case each =>
    refine List.forall₂_map_right_iff.mpr (List.forall₂_same.mpr fun n hn => ?_)
    exact ⟨Member.length_declaredIn n.2, (l.told_of_mem_nodes hn).2⟩

-- A wolf whose age is declared three times. The last two have the same mark.
def agedWolf : Element :=
  let age (mark init : String) : Element :=
    { kind := .member .var, name := some "age"
      facets := .ofList [(Keyword.origin, mark), ("init", init)] }
  { kind := .species, name := some "wolf"
    children := [age "birth" "1", age "arrival" "2", age "arrival" "3"] }

def agedRequest : Request where
  primary := "main"
  trees := [{ kind := .model, name := some "main", children := [agedWolf] }]

-- The first age is replaced in silence, the second one is not, and the third one stays.
open Declarations in
theorem last_age_told : ∃ (l : Assembler.Linking {} agedRequest) (told : Diagnostic),
    l.model.addOwnMembers (ofTrees agedRequest.trees).1.members l.placement.nodes =
      ⟨.ok l.complemented, [told]⟩ ∧
    told.severity = .error ∧ told.code = some .duplicateMember ∧
    ∃ d, l.complemented.get? l.base = some d ∧ d.members.get? ⟨.var, "age"⟩ =
      some { role := .var, name := "age"
             facets := .ofList [(Keyword.origin, "arrival"), ("init", "3")] } := by
  have ⟨l⟩ := Assembler.nonempty_linking {} (r := agedRequest) rfl (by simp [agedRequest])
  obtain ⟨reports, houtcome, -, heach⟩ := duplicate_members_by_origin l
  have hnodes : l.placement.nodes = [(l.base, agedWolf)] := l.nodes_placement
  have hglobals : l.model.root.duplicateMembers (ofTrees agedRequest.trees).1.members = [] := rfl
  rw [hnodes] at heach
  obtain ⟨told, _, ⟨_, d, hd, htold⟩, hrest, rfl⟩ := List.forall₂_cons_left_iff.mp heach
  cases List.forall₂_nil_left_iff.mp hrest
  -- Of the two replacements, only the second one is of an age with the same mark.
  have hmarks : ((replacements Member.key (Member.declaredIn agedWolf)).filter
      fun o => o.1.origin = o.2.origin).length = 1 := by decide +kernel
  have hlength : told.length = 1 := by
    rw [htold.reports_eq, Description.duplicateMembers, Description.tellOf, List.length_map]
    exact hmarks
  obtain ⟨report, rfl⟩ := List.length_eq_one_iff.mp hlength
  have ⟨hseverity, hcode⟩ := htold.errors report (List.mem_singleton_self _)
  refine ⟨l, report, ?outcome, hseverity, hcode, d, hd, ?kept⟩
  case outcome => rw [houtcome, hglobals]; rfl
  case kept => rw [htold.kept]; rfl

-- A wolf whose age is declared twice, with marks of its own.
def markedWolf : Element :=
  let age (mark : String) : Element :=
    { kind := .member .var, name := some "age", facets := .ofList [(Keyword.origin, mark)] }
  { kind := .species, name := some "wolf", children := [age "birth", age "arrival"] }

def markedRequest : Request where
  primary := "main"
  trees := [{ kind := .model, name := some "main", children := [markedWolf] }]

-- One age replaces the other, and nothing is said.
open Declarations in
theorem duplicate_untold : ∃ l : Assembler.Linking {} markedRequest,
    (l.model.addOwnMembers (ofTrees markedRequest.trees).1.members
      l.placement.nodes).diagnostics = [] ∧
    ∃ n ∈ l.placement.nodes, n.2.members.length = 2 ∧ keyCount (Member.declaredIn n.2) = 1 := by
  have ⟨l⟩ := Assembler.nonempty_linking {} (r := markedRequest) rfl (by simp [markedRequest])
  have hnodes : l.placement.nodes = [(l.base, markedWolf)] := l.nodes_placement
  have hglobals : (ofTrees markedRequest.trees).1.members = [] := rfl
  have hmarks : (replacements Member.key (Member.declaredIn markedWolf)).filter
      (fun o => o.1.origin = o.2.origin) = [] := List.eq_nil_of_length_eq_zero (by decide +kernel)
  have hnone (i : Nat) : l.model.duplicateMembers i (Member.declaredIn markedWolf) = [] := by
    rw [Model.duplicateMembers]
    cases l.model.get? i
    case none => rfl
    case some d => simp [Description.duplicateMembers, Description.tellOf, hmarks]
  have hkeys : keyCount (Member.declaredIn markedWolf) = 1 := by decide +kernel
  refine ⟨l, ?untold, (l.base, markedWolf), ?node, rfl, hkeys⟩
  case node =>
    rw [hnodes]
    exact List.mem_singleton_self _
  case untold =>
    rw [l.addOwnMembers_eq, hnodes, hglobals, Model.duplicateMembers, Model.get?_rootIndex]
    simp [hnone, Description.duplicateMembers, Description.tellOf, replacements]

end ModelAssembly
