import ModelAssembly.Proofs.Embedding
/-!
Models that are changed where they stand. An operation goes step by step, and what it has changed by
the time it fails stays changed. All the same, a failed operation leaves no trace: what may refuse
it is asked ahead of the first change, and again only where the answer is known. So operations in
place come to what `Model.add`, `Model.graft` and the operations on descriptions say, and no run
of them over any number of models changes a description that is finalized.

Main statements: `performs_add` and `performs_graft` for the operations of several steps,
`Command.performs` for all of them; `Command.get?_of_finalized` for one step of a run and
`Models.get?_of_finalized` for all of it; `failures_change_nothing` puts them together.
-/

namespace ModelAssembly

-- What changes a state as it goes. Where it fails, the state is left as it is by then.
abbrev Mutation (σ : Type) := ExceptT ModelError (StateM σ)

namespace Mutation

variable {σ τ α β : Type} {s s' : σ} {x : Mutation σ Unit} {f : σ → Except ModelError σ}
  {e : ModelError}

def exec (x : Mutation σ α) (s : σ) : Except ModelError α × σ := ((ExceptT.run x).run s).run

@[simp]
theorem exec_pure (a : α) : exec (pure a) s = (.ok a, s) := rfl

@[simp]
theorem exec_get : exec get s = (.ok s, s) := rfl

@[simp]
theorem exec_modify (change : σ → σ) : exec (modify change) s = (.ok ⟨⟩, change s) := rfl

@[simp]
theorem exec_throw (e : ModelError) : exec (throw e : Mutation σ α) s = (.error e, s) := rfl

@[simp]
theorem exec_bind (x : Mutation σ α) (next : α → Mutation σ β) : exec (x >>= next) s =
    match exec x s with
    | (.ok a, s) => exec (next a) s
    | (.error e, s) => (.error e, s) := by
  unfold exec ExceptT.run StateT.run Id.run
  simp only [bind, ExceptT.bind, ExceptT.mk, StateT.bind, ExceptT.bindCont]
  cases x s
  case mk result s => cases result <;> rfl

-- Changes the part of a state that `look` shows and `put` puts back.
def part (look : σ → τ) (put : σ → τ → σ) (x : Mutation τ Unit) : Mutation σ Unit := do
  let (result, t) := x.exec (look (← get))
  modify (put · t)
  match result with
  | .ok () => pure ()
  | .error e => throw e

-- What comes of a change that is made as a whole or not at all.
def whole (f : σ → Except ModelError σ) (s : σ) : Except ModelError Unit × σ :=
  match f s with
  | .ok s' => (.ok (), s')
  | .error e => (.error e, s)

def Performs (x : Mutation σ Unit) (f : σ → Except ModelError σ) : Prop :=
  ∀ s, x.exec s = whole f s

theorem whole_of_ok (h : f s = .ok s') : whole f s = (.ok (), s') := by rw [whole, h]

theorem whole_of_error (h : f s = .error e) : whole f s = (.error e, s) := by rw [whole, h]

theorem exec_part_of_ok {look : σ → τ} {put : σ → τ → σ} {y : Mutation τ Unit} {t : τ}
    (h : y.exec (look s) = (.ok (), t)) : (part look put y).exec s = (.ok (), put s t) := by
  simp [part, h]

theorem exec_part_of_error {look : σ → τ} {put : σ → τ → σ} {y : Mutation τ Unit} {t : τ}
    (h : y.exec (look s) = (.error e, t)) : (part look put y).exec s = (.error e, put s t) := by
  simp [part, h]

-- A part that is put back as it was makes no difference.
theorem exec_part {look : σ → τ} {put : σ → τ → σ} {y : Mutation τ Unit}
    {g : τ → Except ModelError τ} (h : y.Performs g) (hs : put s (look s) = s) :
    (part look put y).exec s = whole (fun s => (g (look s)).map (put s)) s := by
  cases hg : g (look s)
  case ok t =>
    have hy := (h (look s)).trans (whole_of_ok hg)
    rw [exec_part_of_ok hy, whole_of_ok (by rw [hg]; rfl)]
  case error e =>
    have hy := (h (look s)).trans (whole_of_error hg)
    rw [exec_part_of_error hy, hs, whole_of_error (by rw [hg]; rfl)]

theorem whole_eq_error_iff : (whole f s).1 = .error e ↔ f s = .error e := by
  unfold whole
  cases f s <;> simp

theorem Performs.eq_of_error (h : x.Performs f) (he : (x.exec s).1 = .error e) :
    (x.exec s).2 = s := by
  rw [h] at he ⊢
  rw [whole_of_error (whole_eq_error_iff.mp he)]

-- The lock is asked first.
def edit (change : Description → Description) : Mutation Description Unit := do
  let d ← get
  if d.isFinalized then throw (.finalized d.name)
  modify change

def addMicro (index : Nat) : Mutation Description Unit :=
  edit fun d => { d with micro := d.micro ++ [index] }

-- Changes the description at `i` where it stands.
def within (i : Nat) (x : Mutation Description Unit) : Mutation Model Unit := do
  match (← get).get? i with
  | none => throw (.outside i)
  | some d => part (fun _ => d) (fun m d => m.set i d) x

-- The owner takes the new description in before it is there.
def add (owner : Nat) (d : Description) : Mutation Model Unit := do
  let m ← get
  if (m.get? owner).isNone then throw (.unknown owner)
  within owner (addMicro m.size)
  modify (·.append [{ d with owner := some owner }])

def appendAll (ds : List Description) : Mutation Model Unit :=
  ds.forM fun d => modify (·.append [d])

-- The copies are all there before the root takes the first of them in.
def graft (name : String) (other : Model) : Mutation Model Unit := do
  unless other.root.isFinalized do throw (.notFinalized other.name)
  let m ← get
  if m.root.isFinalized then throw (.finalized m.name)
  appendAll (other.shifted m.size name)
  within Model.rootIndex (addMicro m.size)
  modify fun n => { n with
    alternatePaths := n.alternatePaths.insertAll other.alternatePaths.toList
    grafts := n.grafts.insert name m.size }

end Mutation

-- What can be asked of a description.
inductive Change where
  | setParent (link : ParentLink)
  | setOrigin (origin : String)
  | setProvenance (provenance : Provenance)
  | setFacet (name expression : String)
  | removeFacet (name : String)
  | addMember (m : Member)
  | inheritMembers (parent : String) (ms : List Member)
  | close

namespace Change

open Description Mutation

def apply : Change → Description → Except ModelError Description
  | setParent link, d => d.setParent link
  | setOrigin origin, d => d.setOrigin origin
  | setProvenance provenance, d => d.setProvenance provenance
  | setFacet name expression, d => d.setFacet name expression
  | removeFacet name, d => d.removeFacet name
  | addMember m, d => d.addMember m
  | inheritMembers parent ms, d => d.inheritMembers parent ms
  | close, d => .ok d.close

def effect : Change → Description → Description
  | setParent link, d => { d with parent := some link }
  | setOrigin origin, d => { d with origin := some origin }
  | setProvenance provenance, d => { d with provenance }
  | setFacet name expression, d => { d with facets := d.facets.insert name expression }
  | removeFacet name, d => { d with facets := d.facets.erase name }
  | addMember m, d => { d with members := d.members.insert m.key m }
  | inheritMembers parent ms, d => { d with members := (d.inheritable parent ms).merge d.members }
  | close, d => d.close

-- All changes but the last ask for the lock.
def perform : Change → Mutation Description Unit
  | close => modify Description.close
  | c => Mutation.edit c.effect

end Change

namespace Mutation

open Model

variable {m g : Model} {name : String} {i owner : Nat} {d : Description}

theorem performs_edit (change : Description → Description) :
    (edit change).Performs (·.edit change) := by
  intro d
  cases hd : d.isFinalized
  case false =>
    rw [whole_of_ok (Description.edit_of_open hd change)]
    simp [edit, hd]
  case true =>
    rw [whole_of_error (Description.edit_eq_error_iff.mpr ⟨hd, rfl⟩)]
    simp [edit, hd]

theorem performs_within {x : Mutation Description Unit}
    {f : Description → Except ModelError Description} (h : x.Performs f) :
    (within i x).Performs (·.modify i f) := by
  intro m
  cases hd : m.get? i
  case none =>
    rw [whole_of_error (modify_of_none hd)]
    simp [within, hd]
  case some d =>
    have hx : (within i x).exec m = (part (fun _ => d) (fun m d => m.set i d) x).exec m := by
      simp [within, hd]
    rw [hx, exec_part h (set_self hd), whole, whole, modify_of_get? hd]

theorem exec_appendAll {ds : List Description} :
    (appendAll ds).exec m = (.ok (), m.append ds) := by
  induction ds generalizing m
  case nil =>
    have hm : m.append [] = m := by simp [append]
    rw [hm]
    rfl
  case cons d ds hi =>
    have hx : (appendAll (d :: ds)).exec m = (appendAll ds).exec (m.append [d]) := by
      simp [appendAll]
    rw [hx, hi, append_append, List.singleton_append]

theorem performs_addMicro (index : Nat) :
    (within i (addMicro index)).Performs (·.modify i (·.addMicro index)) :=
  performs_within (performs_edit _)

theorem exec_addMicro_of_open {index : Nat} (hd : m.get? i = some d) (ho : d.isFinalized = false) :
    (within i (addMicro index)).exec m =
      (.ok (), m.alter i fun d => { d with micro := d.micro ++ [index] }) :=
  (performs_addMicro index m).trans (whole_of_ok (modify_edit hd ho _))

theorem exec_addMicro_of_finalized {index : Nat} (hd : m.get? i = some d)
    (hf : d.isFinalized = true) :
    (within i (addMicro index)).exec m = (.error (.finalized d.name), m) := by
  refine (performs_addMicro index m).trans (whole_of_error ?_)
  simp [Model.modify, Model.get, hd, Description.addMicro, Description.edit, hf, bind, Except.bind]

theorem performs_add : (add owner d).Performs (·.add owner d) := by
  intro m
  cases ho : m.get? owner
  case none =>
    rw [whole_of_error (add_of_none ho)]
    simp [add, ho]
  case some o =>
    cases hf : o.isFinalized
    case false =>
      rw [whole_of_ok (add_eq ho hf d)]
      simp [add, ho, exec_addMicro_of_open ho hf, grow]
    case true =>
      rw [whole_of_error (add_of_finalized ho hf)]
      simp [add, ho, exec_addMicro_of_finalized ho hf]

-- The root, which was found open, still is when the copies are there.
theorem performs_graft : (graft name g).Performs (·.graft name g) := by
  intro m
  cases hg : g.root.isFinalized
  case false =>
    have hm : m.graft name g = .error (.notFinalized g.name) := graft_of_open hg
    rw [whole_of_error (s := m) hm]
    simp [graft, hg]
  case true =>
    cases hf : m.root.isFinalized
    case true =>
      have hm : m.graft name g = .error (.finalized m.name) := graft_of_finalized hg hf
      rw [whole_of_error (s := m) hm]
      simp [graft, hg, hf]
    case false =>
      have hm : m.graft name g = .ok (m.withGrafts [(name, g)]) :=
        graft_eq_ok_iff.mpr ⟨hg, hf, rfl⟩
      rw [whole_of_ok (s := m) hm]
      have hroot : (m.append (g.shifted m.size name)).get? rootIndex = some m.root :=
        (get?_append_left _ m.size_pos).trans (get?_rootIndex m)
      have hmicro : (within rootIndex (addMicro m.size)).exec (m.append (g.shifted m.size name)) =
          (.ok (), m.grow rootIndex [m.size] (graftBlock m.size [(name, g)])) := by
        rw [exec_addMicro_of_open hroot hf, alter_append _ _ m.rootIndex_lt_size,
          graftBlock_singleton]
        rfl
      simp [graft, hg, hf, exec_appendAll, hmicro]
      rfl

end Mutation

namespace Change

open Description

variable {c : Change} {d d' : Description} {e : ModelError}

theorem apply_of_ne (h : c ≠ close) : c.apply d = d.edit c.effect := by
  cases c
  case close => exact absurd rfl h
  all_goals rfl

theorem performs (c : Change) : c.perform.Performs c.apply := by
  cases c
  case close => exact fun _ => rfl
  all_goals exact Mutation.performs_edit _

theorem operation_of_apply (h : c.apply d = .ok d') : d.Operation d' := by
  cases c
  case setParent => exact .setParent h
  case setOrigin => exact .setOrigin h
  case setProvenance => exact .setProvenance h
  case setFacet => exact .setFacet h
  case removeFacet => exact .removeFacet h
  case addMember => exact .addMember h
  case inheritMembers => exact .inheritMembers h
  case close => exact Except.ok.inj h ▸ .close

-- The lock refuses all but to be set again.
theorem apply_eq_error_iff :
    c.apply d = .error e ↔ c ≠ close ∧ d.isFinalized = true ∧ e = .finalized d.name := by
  by_cases h : c = close
  case pos => simp [h, apply]
  case neg => rw [apply_of_ne h, edit_eq_error_iff, and_iff_right h]

end Change

-- Any number of models.
abbrev Models (ι : Type) := ι → Model

-- What can be asked of one of the models.
inductive Command (ι : Type) where
  | add (k : ι) (owner : Nat) (d : Description)
  | graft (k : ι) (name : String) (other : ι)
  | change (k : ι) (i : Nat) (c : Change)

namespace Command

open Model Mutation

variable {ι : Type} [DecidableEq ι] {s s' : Models ι} {c : Command ι} {k : ι} {i : Nat}
  {d : Description} {e : ModelError}

def apply : Command ι → Models ι → Except ModelError (Models ι)
  | add k owner d, s => ((s k).add owner d).map (Function.update s k)
  | graft k name other, s => ((s k).graft name (s other)).map (Function.update s k)
  | change k i c, s => ((s k).modify i c.apply).map (Function.update s k)

def perform : Command ι → Mutation (Models ι) Unit
  | add k owner d => part (· k) (Function.update · k) (Mutation.add owner d)
  | graft k name other => do
    let g := (← get) other
    part (· k) (Function.update · k) (Mutation.graft name g)
  | change k i c => part (· k) (Function.update · k) (within i c.perform)

-- What is done to one of the models.
theorem exec_at {x : Mutation Model Unit} {f : Model → Except ModelError Model} (h : x.Performs f) :
    (part (· k) (Function.update · k) x).exec s =
      whole (fun s => (f (s k)).map (Function.update s k)) s :=
  exec_part h (Function.update_eq_self k s)

theorem performs (c : Command ι) : c.perform.Performs c.apply := by
  intro s
  cases c
  case add =>
    rw [perform, exec_at performs_add, whole, whole, apply]
  case graft k name other =>
    have hx : (graft k name other).perform.exec s =
        (part (· k) (Function.update · k) (Mutation.graft name (s other))).exec s := by
      simp [perform]
    rw [hx, exec_at performs_graft, whole, whole, apply]
  case change c =>
    rw [perform, exec_at (performs_within c.performs), whole, whole, apply]

-- Why a command is refused.
inductive Refused (s : Models ι) : Command ι → ModelError → Prop
  | unknown {k : ι} {owner : Nat} {d : Description} :
    (s k).get? owner = none → Refused s (add k owner d) (.unknown owner)
  | ownerFinalized {k : ι} {owner : Nat} {d o : Description} :
    (s k).get? owner = some o → o.isFinalized = true →
      Refused s (add k owner d) (.finalized o.name)
  | notFinalized {k other : ι} {name : String} :
    (s other).root.isFinalized = false →
      Refused s (graft k name other) (.notFinalized (s other).name)
  | rootFinalized {k other : ι} {name : String} :
    (s other).root.isFinalized = true → (s k).root.isFinalized = true →
      Refused s (graft k name other) (.finalized (s k).name)
  | outside {k : ι} {i : Nat} {c : Change} :
    (s k).get? i = none → Refused s (change k i c) (.outside i)
  | finalized {k : ι} {i : Nat} {c : Change} {d : Description} :
    (s k).get? i = some d → d.isFinalized = true → c ≠ .close →
      Refused s (change k i c) (.finalized d.name)

theorem map_eq_error_iff {α β : Type} {r : Except ModelError α} {f : α → β} :
    r.map f = .error e ↔ r = .error e := by
  cases r <;> simp [Except.map]

theorem apply_eq_error_iff : c.apply s = .error e ↔ c.Refused s e := by
  cases c
  case add k owner d =>
    rw [apply, map_eq_error_iff, add_eq_error_iff]
    constructor
    case mp =>
      rintro (⟨ho, rfl⟩ | ⟨o, ho, hf, rfl⟩)
      case inl => exact .unknown ho
      case inr => exact .ownerFinalized ho hf
    case mpr => exact fun
      | .unknown ho => .inl ⟨ho, rfl⟩
      | .ownerFinalized ho hf => .inr ⟨_, ho, hf, rfl⟩
  case graft k name other =>
    rw [apply, map_eq_error_iff, graft_eq_error_iff]
    constructor
    case mp =>
      rintro (⟨hg, rfl⟩ | ⟨hg, hf, rfl⟩)
      case inl => exact .notFinalized hg
      case inr => exact .rootFinalized hg hf
    case mpr => exact fun
      | .notFinalized hg => .inl ⟨hg, rfl⟩
      | .rootFinalized hg hf => .inr ⟨hg, hf, rfl⟩
  case change k i c =>
    rw [apply, map_eq_error_iff, modify_eq_error_iff]
    constructor
    case mp =>
      rintro (⟨hd, rfl⟩ | ⟨d, hd, he⟩)
      case inl => exact .outside hd
      case inr =>
        obtain ⟨hc, hf, rfl⟩ := Change.apply_eq_error_iff.mp he
        exact .finalized hd hf hc
    case mpr => exact fun
      | .outside hd => .inl ⟨hd, rfl⟩
      | .finalized hd hf hc => .inr ⟨_, hd, Change.apply_eq_error_iff.mpr ⟨hc, hf, rfl⟩⟩

-- Models other than the one that is changed are not touched.
theorem get?_of_update {r : Except ModelError Model} {target : ι}
    (h : r.map (Function.update s target) = .ok s')
    (hr : ∀ n i d, r = .ok n → (s target).get? i = some d → d.isFinalized = true →
      n.get? i = some d)
    (hd : (s k).get? i = some d) (hf : d.isFinalized = true) : (s' k).get? i = some d := by
  cases r
  case error => cases h
  case ok n =>
    cases h
    by_cases hk : k = target
    case pos =>
      subst hk
      rw [Function.update_self]
      exact hr n i d rfl hd hf
    case neg =>
      rw [Function.update_of_ne hk]
      exact hd

theorem get?_of_apply (h : c.apply s = .ok s') (hd : (s k).get? i = some d)
    (hf : d.isFinalized = true) : (s' k).get? i = some d := by
  cases c
  case add => exact get?_of_update h (fun _ _ _ ha hd hf => get?_of_add ha hd hf) hd hf
  case graft =>
    exact get?_of_update h (fun _ _ _ hg hd hf => get?_of_graft_of_finalized hg hd hf) hd hf
  case change =>
    refine get?_of_update h (fun _ _ _ hm hd hf => ?_) hd hf
    exact (Operations.of_modify (fun _ _ => Change.operation_of_apply) hm).get?_of_finalized hd hf

-- A step of a run, whether it goes through or is refused.
theorem get?_of_finalized (hd : (s k).get? i = some d) (hf : d.isFinalized = true) :
    ((c.perform.exec s).2 k).get? i = some d := by
  rw [c.performs s, whole]
  cases h : c.apply s
  case ok s' => exact get?_of_apply h hd hf
  case error => exact hd

end Command

namespace Models

variable {ι : Type} [DecidableEq ι] {s : Models ι} {k : ι} {i : Nat} {d : Description}

-- A run goes on after a command was refused.
def run (s : Models ι) (commands : List (Command ι)) : Models ι :=
  commands.foldl (fun s c => (c.perform.exec s).2) s

theorem run_append (before after : List (Command ι)) :
    s.run (before ++ after) = (s.run before).run after := List.foldl_append

theorem get?_of_finalized (commands : List (Command ι)) (hd : (s k).get? i = some d)
    (hf : d.isFinalized = true) : (s.run commands k).get? i = some d := by
  induction commands generalizing s
  case nil => exact hd
  case cons c commands hi => exact hi (Command.get?_of_finalized hd hf)

end Models

open Model

-- Whatever a run has come to, the next command does what the operation on models says, or it
-- fails for one of the reasons there are and leaves all models as they were. From the moment that a
-- description is finalized, its model holds it as it is.
theorem failures_change_nothing {ι : Type} [DecidableEq ι] (s : Models ι)
    (commands : List (Command ι)) :
    (∀ before c after, commands = before ++ c :: after →
      let t := s.run before
      (∀ t', c.apply t = .ok t' → c.perform.exec t = (.ok (), t') ∧ s.run (before ++ [c]) = t') ∧
      (∀ e, (c.perform.exec t).1 = .error e ↔ c.Refused t e) ∧
      ∀ e, (c.perform.exec t).1 = .error e → s.run (before ++ [c]) = t) ∧
    ∀ before after, commands = before ++ after →
      ∀ k i d, (s.run before k).get? i = some d → d.isFinalized = true →
        (s.run commands k).get? i = some d := by
  refine ⟨fun before c after _ => ?step, fun before after h k i d hd hf => ?finalized⟩
  case step =>
    have hperforms := c.performs (s.run before)
    have hrun : s.run (before ++ [c]) = (c.perform.exec (s.run before)).2 := s.run_append before [c]
    refine ⟨fun t' h => ?ok, fun e => ?refused, fun e he => ?unchanged⟩
    case ok =>
      have hx := hperforms.trans (Mutation.whole_of_ok h)
      exact ⟨hx, by rw [hrun, hx]⟩
    case refused => rw [hperforms, Mutation.whole_eq_error_iff, Command.apply_eq_error_iff]
    case unchanged => exact hrun.trans (c.performs.eq_of_error he)
  case finalized =>
    rw [h, Models.run_append]
    exact Models.get?_of_finalized after hd hf

-- A fox that is turned away from the burrow leaves no trace, and the root of the burrow stays as it
-- is while the burrow is grafted into the woods and goes on being worked on.
theorem failures_change_nothing_in_woods : ∃ m g, woods (.builtIn "agent") = .ok m ∧
    burrow = .ok g ∧
    let s : Models Bool := fun wild => if wild then m else g
    let fox : Command Bool := .add false rootIndex (.new .species .species "fox" ∅)
    let others : List (Command Bool) := [.graft true "hole" false, .change false 1 .close]
    (fox.perform.exec s).1 = .error (.finalized "burrow") ∧ s.run [fox] = s ∧
      (s.run (fox :: others) false).get? rootIndex = some g.root := by
  have ⟨m, hm⟩ : ∃ m, woods (.builtIn "agent") = .ok m := ⟨_, rfl⟩
  have ⟨g, hg⟩ : ∃ g, burrow = .ok g := ⟨_, rfl⟩
  refine ⟨m, g, hm, hg, ?_⟩
  intro s fox others
  have ⟨hname, hf⟩ : g.root.name = "burrow" ∧ g.root.isFinalized = true := by
    cases hg
    decide +kernel
  have hroot : (s false).get? rootIndex = some g.root := get?_rootIndex g
  have hrefused : fox.Refused s (.finalized "burrow") := hname ▸ .ownerFinalized hroot hf
  have ⟨hsteps, hstays⟩ := failures_change_nothing s (fox :: others)
  have ⟨_, hreasons, hunchanged⟩ := hsteps [] fox others rfl
  have he := (hreasons _).mpr hrefused
  exact ⟨he, hunchanged _ he, hstays [] _ rfl false rootIndex g.root hroot hf⟩

end ModelAssembly
