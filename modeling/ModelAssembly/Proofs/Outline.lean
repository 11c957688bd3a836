import ModelAssembly.Outline
import ModelAssembly.Proofs.Scheduling
/-!
Outlines, description by description. An outline is written from the root down, each description
ahead of what it contains. It comes to the blocks of all descriptions in the order of a walk, each
indented by how deep its description stands.

Main statements: `outlineTo_eq` takes an outline apart along a walk; `OwnerTree.writes_iff` says
that the bound on the depth is never reached; `outline_follows_walk` puts them together.
-/

open Relation

namespace ModelAssembly

namespace Model

variable {m : Model} {i j o n depth levels : Nat} {is : List Nat}

-- The lines of one description, those of its members indented once.
def blockLines (m : Model) (i : Nat) : List String :=
  match m.get? i with
  | none => []
  | some d => m.outlineHeader i d ::
      (d.members.values.filter fun x => !m.hides x).map fun x => "  " ++ outlineMember x

theorem indent_succ : indent (depth + 1) = indent depth ++ "  " := by
  have h : List.replicate (depth + 1) "  " = List.replicate depth "  " ++ ["  "] :=
    List.replicate_succ'
  rw [indent, h, String.join_append]
  rfl

-- A line that stands one level deeper is a line that is indented once more.
theorem outlineLine_succ (line : String) :
    outlineLine (depth + 1) line = outlineLine depth ("  " ++ line) := by
  rw [outlineLine, outlineLine, indent_succ]
  simp only [String.append_assoc]

theorem outlineBlock_eq : m.outlineBlock depth i =
    String.join ((m.blockLines i).map (outlineLine depth)) := by
  cases hd : m.get? i
  case none => simp [outlineBlock, blockLines, hd]
  case some d =>
    simp only [outlineBlock, blockLines, hd, List.map_cons, String.join_cons, List.map_map,
      outlineLine_succ]
    rfl

theorem join_flatMap {α : Type} (l : List α) (f : α → List String) :
    String.join (l.flatMap f) = String.join (l.map fun a => String.join (f a)) := by
  induction l
  case nil => rfl
  case cons a l hi =>
    rw [List.flatMap_cons, String.join_append, hi, List.map_cons, String.join_cons]

-- Where content stands one level below its owner, an outline consists of the blocks of those that a
-- walk comes by.
theorem outlineTo_eq {level : Nat → Nat}
    (h : ∀ i, ∀ j ∈ m.microOf i, level j = level i + 1) :
    m.outlineTo levels (level i) i =
      String.join ((m.walkTo levels i).map fun j => m.outlineBlock (level j) j) := by
  induction levels generalizing i
  case zero => rfl
  case succ levels hi =>
    have hcontent : (m.microOf i).map (m.outlineTo levels (level i + 1)) = (m.microOf i).map
        fun j => String.join ((m.walkTo levels j).map fun k => m.outlineBlock (level k) k) :=
      List.map_congr_left fun j hj => h i j hj ▸ hi
    rw [outlineTo, walkTo, hcontent, List.map_cons, String.join_cons, List.map_flatMap,
      join_flatMap]

theorem outline_eq {level : Nat → Nat} (hroot : level rootIndex = 0)
    (hcontent : ∀ i, ∀ j ∈ m.microOf i, level j = level i + 1) :
    m.outline = String.join ((m.walk rootIndex).flatMap fun i =>
      (m.blockLines i).map (outlineLine (level i))) := by
  simp only [join_flatMap, ← outlineBlock_eq]
  rw [outline, walk, ← hroot]
  exact outlineTo_eq hcontent

-- Writing an outline, without a bound: what stands under descriptions at a depth is their blocks,
-- each followed by what stands under their content one level deeper.
inductive Writes (m : Model) : Nat → List Nat → String → Prop
  | nil {depth : Nat} : Writes m depth [] ""
  | cons {depth i : Nat} {is : List Nat} {d : Description} {content rest : String} :
    m.get? i = some d → Writes m (depth + 1) d.micro content → Writes m depth is rest →
    Writes m depth (i :: is) (m.outlineBlock depth i ++ content ++ rest)

theorem Writes.unique {text text' : String} (h : m.Writes depth is text)
    (h' : m.Writes depth is text') : text = text' := by
  induction h generalizing text'
  case nil =>
    cases h'
    rfl
  case cons hd _ _ hcontent hrest =>
    cases h'
    case cons hc hd' hr =>
      cases hd.symm.trans hd'
      rw [hcontent hc, hrest hr]

-- `n` owners stand between `i` and the outside of the model.
inductive Depth (m : Model) : Nat → Nat → Prop
  | root : Depth m rootIndex 0
  | owned {i o n : Nat} : m.OwnedBy i o → Depth m o n → Depth m i (n + 1)

namespace OwnerTree

variable (h : m.OwnerTree)

include h

theorem not_ownedBy_root : ¬ m.OwnedBy rootIndex o := fun ho =>
  absurd (h.lt_of_ownedBy ho) (Nat.not_lt_zero o)

theorem depth_unique {k : Nat} (hn : m.Depth i n) (hk : m.Depth i k) : n = k := by
  induction hn generalizing k
  case root =>
    cases hk
    case root => rfl
    case owned ho => exact absurd ho h.not_ownedBy_root
  case owned i o n ho _ hi =>
    cases hk
    case root => exact absurd ho h.not_ownedBy_root
    case owned o' k hk ho' =>
      have ⟨d, hd, hdo⟩ := ho
      have ⟨d', hd', hdo'⟩ := ho'
      cases hd.symm.trans hd'
      cases hdo.symm.trans hdo'
      rw [hi hk]

-- Every description has a depth, one more than that of its owner.
theorem exists_depth : ∃ level : Nat → Nat,
    (∀ i n, i < m.size → (m.Depth i n ↔ n = level i)) ∧
    level rootIndex = 0 ∧ ∀ i, ∀ j ∈ m.microOf i, level j = level i + 1 := by
  have hsome (i : Nat) : ∃ n, i < m.size → m.Depth i n := by
    by_cases hi : i < m.size
    case neg => exact ⟨0, fun hlt => absurd hlt hi⟩
    case pos =>
      have hroot := h.owned_by_root hi
      induction hroot using ReflTransGen.head_induction_on
      case refl => exact ⟨0, fun _ => .root⟩
      case head ho _ ih =>
        have hlt := Nat.lt_trans (h.lt_of_ownedBy ho) hi
        have ⟨n, hn⟩ := ih hlt
        exact ⟨n + 1, fun _ => .owned ho (hn hlt)⟩
  choose level hlevel using hsome
  have hiff (i n : Nat) (hi : i < m.size) : m.Depth i n ↔ n = level i :=
    ⟨fun hn => h.depth_unique hn (hlevel i hi), fun hn => hn ▸ hlevel i hi⟩
  refine ⟨level, hiff, ((hiff rootIndex 0 m.rootIndex_lt_size).mp .root).symm, fun i j hj => ?_⟩
  have ⟨hlt, hj'⟩ := h.lt_of_mem_microOf hj
  have hi := hlevel i (Nat.lt_trans hlt hj')
  exact ((hiff j _ hj').mp (.owned ((h.micro i j).mp hj) hi)).symm

-- The bound on the levels is never reached if it leads to the end of the model.
theorem writes_outlineTo {rest : String} (hi : i < m.size) (hn : m.size - i ≤ levels)
    (hr : m.Writes depth is rest) :
    m.Writes depth (i :: is) (m.outlineTo levels depth i ++ rest) := by
  refine h.content_induction (P := fun i => ∀ levels depth is rest, m.size - i ≤ levels →
    m.Writes depth is rest → m.Writes depth (i :: is) (m.outlineTo levels depth i ++ rest))
    (fun i hi ih levels depth is rest hn hr => ?_) hi levels depth is rest hn hr
  obtain ⟨levels', hl⟩ : ∃ n, levels = n + 1 := ⟨levels - 1, by omega⟩
  obtain ⟨d, hd⟩ := get?_of_lt_size hi
  have hcontent : ∀ l, (∀ j ∈ l, j ∈ m.microOf i) → m.Writes (depth + 1) l
      (String.join (l.map (m.outlineTo levels' (depth + 1)))) := by
    intro l hl
    induction l
    case nil => exact .nil
    case cons j l hrest =>
      have hj := hl j List.mem_cons_self
      have ⟨hlt, _⟩ := h.lt_of_mem_microOf hj
      rw [List.map_cons, String.join_cons]
      exact ih j hj _ _ _ _ (by omega) (hrest fun x hx => hl x (List.mem_cons_of_mem j hx))
  have hmicro := microOf_of_get? hd
  rw [hl, outlineTo, hmicro]
  exact .cons hd (hmicro ▸ hcontent _ fun _ hj => hj) hr

theorem writes_iff {text : String} : m.Writes 0 [rootIndex] text ↔ text = m.outline := by
  have hroot : m.Writes 0 [rootIndex] (m.outline ++ "") :=
    h.writes_outlineTo m.rootIndex_lt_size (Nat.sub_le ..) .nil
  rw [String.append_empty] at hroot
  exact ⟨fun ht => ht.unique hroot, fun he => he ▸ hroot⟩

end OwnerTree

-- The outline of a model that was built by operations: the blocks of its descriptions in the order
-- of a walk from the root, each line behind two blanks for every owner. A block consists of a line
-- for the description itself and of one for each of its members that shows, two blanks deeper.
theorem outline_follows_walk (m : Model) (h : m.Built) : ∃ level : Nat → Nat,
    (∀ i n, i < m.size → (m.Depth i n ↔ n = level i)) ∧
    m.outline = String.join ((m.walk rootIndex).flatMap fun i => (m.blockLines i).map fun line =>
      String.join (List.replicate (level i) "  ") ++ line ++ "\n") ∧
    (∀ i d, m.get? i = some d → m.blockLines i =
      (d.declaredAs.keyword ++ " " ++ d.name ++ ((m.parentName i).map (" : " ++ ·)).getD "" ++
        (if d.isModel then (d.graftedFrom.map (" as " ++ ·)).getD "" else "") ++
          if d.isAbstract then " [virtual]" else "") ::
        (d.members.values.filter fun x =>
          !x.inheritedFrom.any fun source => (m.registry.lookup source).isSome).map fun x =>
            "  " ++ (x.role.text ++ " " ++ x.name ++
              ((x.inheritedFrom.map fun source => " (from " ++ source ++ ")").getD "") ++
                if x.isAbstract then " [virtual]" else "")) ∧
    (m.walk rootIndex).Perm (List.range m.size) ∧
    (∀ order, m.Traverses [rootIndex] order ↔ order = m.walk rootIndex) ∧
    ∀ text, m.Writes 0 [rootIndex] text ↔ text = m.outline := by
  have htree := h.ownerTree
  have hs := m.rootIndex_lt_size
  have ⟨level, hlevel, hroot, hcontent⟩ := htree.exists_depth
  refine ⟨level, hlevel, outline_eq hroot hcontent, ?lines, ?perm,
    fun _ => htree.traverses_iff hs, fun _ => htree.writes_iff⟩
  case lines =>
    intro i d hd
    rw [blockLines, hd]
    rfl
  case perm =>
    refine (List.perm_ext_iff_of_nodup (htree.nodup_walk hs) List.nodup_range).mpr fun i => ?_
    rw [htree.mem_walk_root_iff, List.mem_range]

-- The ducklings in the park stand below the ducks in the pond.
theorem outline_follows_walk_in_park : ∃ (m : Model) (level : Nat → Nat),
    park = .ok m ∧ m.Built ∧ level 3 = 3 ∧
    m.outline = String.join ([0, 1, 2, 3, 4, 5].flatMap fun i => (m.blockLines i).map fun line =>
      String.join (List.replicate (level i) "  ") ++ line ++ "\n") ∧
    m.Writes 0 [rootIndex] m.outline := by
  have hfacts : park.toOption.map (fun m => (m.walk rootIndex,
      [1, 2, 3].map fun i => (m.get? i).map (·.owner))) =
        some ([0, 1, 2, 3, 4, 5], [some (some 0), some (some 1), some (some 2)]) := by
    decide +kernel
  have ⟨m, hm, hfacts⟩ := Option.map_eq_some_iff.mp hfacts
  have hm := toOption_eq_some_iff.mp hm
  have ⟨hwalk, h₁, h₂, h₃⟩ : m.walk rootIndex = [0, 1, 2, 3, 4, 5] ∧
      (m.get? 1).map (·.owner) = some (some 0) ∧ (m.get? 2).map (·.owner) = some (some 1) ∧
        (m.get? 3).map (·.owner) = some (some 2) := by
    simpa using hfacts
  have ⟨pond, hp, hpark⟩ := bind_eq_ok_iff.mp hm
  have hpond : pond.Assembled := .assemble (fun _ hg => absurd hg List.not_mem_nil) hp
  have hall : m.Assembled := by
    refine .assemble (fun g hg => ?_) hpark
    cases List.mem_singleton.mp hg
    exact hpond
  have ⟨level, hlevel, houtline, _, _, _, hwrites⟩ := outline_follows_walk m hall.built
  have hdepth : m.Depth 3 3 :=
    .owned (Option.map_eq_some_iff.mp h₃) (.owned (Option.map_eq_some_iff.mp h₂)
      (.owned (Option.map_eq_some_iff.mp h₁) .root))
  have ⟨_, h₃, _⟩ := Option.map_eq_some_iff.mp h₃
  exact ⟨m, level, hm, hall.built, ((hlevel 3 3 (lt_size_of_get? h₃)).mp hdepth).symm,
    hwalk ▸ houtline, (hwrites _).mpr rfl⟩

end Model
end ModelAssembly
