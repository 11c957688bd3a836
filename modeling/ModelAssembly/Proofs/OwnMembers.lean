import ModelAssembly.Assembly.OwnMembers
import ModelAssembly.Proofs.Arena
import ModelAssembly.Proofs.OrderedMap
/-!
Own members in closed form. Members are added one by one, but what a description has in the end
depends only on the list of those that are meant for it.

Main statements: `addOwnMembers_eq` gives the model that comes out; it never fails while the
descriptions concerned are open.
-/

namespace ModelAssembly

theorem mapError_foldlM {ε ε' σ β : Type} (f : σ → β → Except ε σ) (g : ε → ε') (s : σ)
    (l : List β) :
    (l.foldlM f s).mapError g = l.foldlM (fun s x => (f s x).mapError g) s := by
  induction l generalizing s
  case nil => rfl
  case cons x l hi =>
    rw [List.foldlM_cons, List.foldlM_cons, mapError_bind]
    congr 1
    funext t
    exact hi t

namespace Description

-- `d` after `ms` were added to it, in order.
def withMembers (d : Description) (ms : List Member) : Description :=
  { d with members := d.members.insertAll (ms.map fun m => (m.key, m)) }

end Description

namespace Model

variable {m : Model} {i : Nat} {globals : List Member} {nodes : List (Nat × Element)}

-- Adds one member to the description that it is meant for.
def write (m : Model) (w : Nat × Member) : Except ModelError Model :=
  m.modify w.1 (·.addMember w.2)

-- All that is added, each member with the index of its description.
def writes (globals : List Member) (nodes : List (Nat × Element)) : List (Nat × Member) :=
  globals.map (rootIndex, ·) ++ nodes.flatMap fun n => (Member.declaredIn n.2).map (n.1, ·)

-- What is added to the description at `i`.
def ownMembers (globals : List Member) (nodes : List (Nat × Element)) (i : Nat) : List Member :=
  (if i = rootIndex then globals else []) ++
    (nodes.filter (·.1 = i)).flatMap fun n => Member.declaredIn n.2

theorem result_addMember (m : Model) (i : Nat) (x : Member) :
    (m.addMember i x).result = (m.modify i (·.addMember x)).mapError .refused := by
  simp only [addMember, modify, Outcome.result_bind, Outcome.result_ofModel, mapError_bind]
  rfl

theorem result_addMembers (m : Model) (i : Nat) (ms : List Member) :
    (m.addMembers i ms).result =
      ((ms.map (i, ·)).foldlM write m).mapError .refused := by
  rw [addMembers, Outcome.result_foldlM, mapError_foldlM, List.foldlM_map]
  simp only [result_addMember]
  rfl

theorem result_addOwnMembers (m : Model) (globals : List Member) (nodes : List (Nat × Element)) :
    (m.addOwnMembers globals nodes).result =
      ((writes globals nodes).foldlM write m).mapError .refused := by
  have hn (m : Model) :
      (nodes.foldlM (fun (m : Model) n => m.addMembers n.1 (Member.declaredIn n.2)) m).result =
        ((nodes.flatMap fun n => (Member.declaredIn n.2).map (n.1, ·)).foldlM write m).mapError
          .refused := by
    induction nodes generalizing m
    case nil => rfl
    case cons n nodes hi =>
      rw [List.flatMap_cons, List.foldlM_append, mapError_bind, ← result_addMembers,
        List.foldlM_cons, Outcome.result_bind]
      congr 1
      funext m
      exact hi m
  rw [writes, List.foldlM_append, mapError_bind, ← result_addMembers, addOwnMembers,
    Outcome.result_bind]
  congr 1
  funext m
  exact hn m

theorem filter_writes (globals : List Member) (nodes : List (Nat × Element)) (i : Nat) :
    ((writes globals nodes).filter (·.1 = i)).map Prod.snd = ownMembers globals nodes i := by
  have hp (j : Nat) (ms : List Member) :
      ((ms.map (j, ·)).filter (·.1 = i)).map Prod.snd = if i = j then ms else [] := by
    by_cases h : j = i
    case pos => simp [h, List.filter_map, Function.comp_def]
    case neg =>
      have h' : ¬ i = j := fun he => h he.symm
      simp [h, h', List.filter_map, Function.comp_def]
  rw [writes, List.filter_append, List.map_append, hp, ownMembers]
  congr 1
  induction nodes
  case nil => rfl
  case cons n nodes hi =>
    rw [List.flatMap_cons, List.filter_append, List.map_append, hp, hi, List.filter_cons]
    by_cases h : n.1 = i
    case pos => simp [h]
    case neg =>
      have h' : ¬ i = n.1 := fun he => h he.symm
      simp [h, h']

theorem addOwnMembers_eq (hr : m.root.isFinalized = false)
    (hn : ∀ n ∈ nodes, ∃ d, m.get? n.1 = some d ∧ d.isFinalized = false) :
    (m.addOwnMembers globals nodes).result =
      .ok (m.mapDescriptions fun i d => d.withMembers (ownMembers globals nodes i)) := by
  have hw (w) (hw : w ∈ writes globals nodes) :
      ∃ d, m.get? w.1 = some d ∧ d.isFinalized = false := by
    cases List.mem_append.mp hw
    case inl h =>
      have ⟨x, _, hx⟩ := List.mem_map.mp h
      exact hx ▸ ⟨m.root, get?_rootIndex m, hr⟩
    case inr h =>
      have ⟨n, hm, h⟩ := List.mem_flatMap.mp h
      have ⟨x, _, hx⟩ := List.mem_map.mp h
      exact hx ▸ hn n hm
  let add (w : Nat × Member) (d : Description) : Description :=
    { d with members := d.members.insert w.2.key w.2 }
  have h : (writes globals nodes).foldlM write m =
      .ok (m.mapDescriptions (editsAt Prod.fst add (writes globals nodes))) :=
    foldlM_edit hw fun _ _ => rfl
  rw [result_addOwnMembers]
  refine (congrArg (Except.mapError AssemblyError.refused) h).trans (congrArg Except.ok ?_)
  apply mapDescriptions_congr
  intro i d hd
  clear hd
  rw [editsAt, ← filter_writes, Description.withMembers, List.map_map]
  -- Each edit touches the members only.
  generalize (writes globals nodes).filter (·.1 = i) = ws
  induction ws generalizing d
  case nil => rfl
  case cons w ws hi => exact hi _

end Model
end ModelAssembly
