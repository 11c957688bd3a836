import ModelAssembly.Proofs.Outcome
/-!
Runs in lockstep: two runs that raise the same diagnostics and either fail alike or come to results
that go together. A run that is put together from steps is in lockstep with another if its steps
are.

Main statements: `Lockstep.bind` and `Lockstep.foldlM`; `Lockstep.elim` says what there is to learn
about the two runs.
-/

namespace ModelAssembly.Outcome

variable {α β γ δ σ τ : Type} {R R' : α → β → Prop} {S : γ → δ → Prop}

inductive Lockstep (R : α → β → Prop) : Outcome α → Outcome β → Prop
  | ok {a : α} {b : β} {ds : List Diagnostic} : R a b → Lockstep R ⟨.ok a, ds⟩ ⟨.ok b, ds⟩
  | error {e : AssemblyError} {ds : List Diagnostic} : Lockstep R ⟨.error e, ds⟩ ⟨.error e, ds⟩

namespace Lockstep

variable {x : Outcome α} {y : Outcome β} {a : α} {b : β}

theorem pure (h : R a b) : Lockstep R (Pure.pure a) (Pure.pure b) := .ok h

-- A run is in lockstep with itself.
theorem self (x : Outcome α) : Lockstep (fun a b => b = a) x x := by
  cases x
  case mk r ds =>
    cases r
    case ok => exact .ok rfl
    case error => exact .error

-- Results that go together are results of the runs.
theorem with_results (h : Lockstep R x y) :
    Lockstep (fun a b => R a b ∧ x.result = .ok a ∧ y.result = .ok b) x y := by
  cases h
  case ok hr => exact .ok ⟨hr, rfl, rfl⟩
  case error => exact .error

theorem mono (h : Lockstep R x y) (hi : ∀ a b, R a b → R' a b) : Lockstep R' x y := by
  cases h
  case ok hr => exact .ok (hi _ _ hr)
  case error => exact .error

theorem bind {f : α → Outcome γ} {g : β → Outcome δ} (h : Lockstep R x y)
    (hs : ∀ a b, R a b → Lockstep S (f a) (g b)) : Lockstep S (x >>= f) (y >>= g) := by
  cases h
  case error => exact .error
  case ok a b ds hr =>
    have hx := bind_of_eq (x := ⟨.ok a, ds⟩) (f := f) rfl
    have hy := bind_of_eq (x := ⟨.ok b, ds⟩) (f := g) rfl
    rw [hx, hy]
    have hfg := hs a b hr
    generalize f a = u at hfg
    generalize g b = v at hfg
    cases hfg
    case ok hs => exact .ok hs
    case error => exact .error

theorem report_bind {ds : List Diagnostic} {x : Outcome γ} {y : Outcome δ} (h : Lockstep S x y) :
    Lockstep S (report ds >>= fun _ => x) (report ds >>= fun _ => y) :=
  .bind (.ok (R := fun _ _ => True) trivial) fun _ _ _ => h

-- Loops over lists that go together.
theorem foldlM {V : σ → τ → Prop} {f : σ → α → Outcome σ} {g : τ → β → Outcome τ} {as : List α}
    {bs : List β} {s : σ} {t : τ} (hl : List.Forall₂ R as bs) (start : V s t)
    (step : ∀ s t a b, V s t → R a b → Lockstep V (f s a) (g t b)) :
    Lockstep V (as.foldlM f s) (bs.foldlM g t) := by
  induction hl generalizing s t
  case nil => exact pure start
  case cons hr _ hi =>
    rw [List.foldlM_cons, List.foldlM_cons]
    exact .bind (step _ _ _ _ start hr) fun s t hv => hi hv

theorem elim (h : Lockstep R x y) : y.diagnostics = x.diagnostics ∧
    (∀ e, y.result = .error e ↔ x.result = .error e) ∧
    ∀ a, x.result = .ok a → ∃ b, y.result = .ok b ∧ R a b := by
  cases h
  case ok b ds hr => exact ⟨rfl, by simp, fun a ha => ⟨b, rfl, Except.ok.inj ha ▸ hr⟩⟩
  case error => exact ⟨rfl, by simp, by simp⟩

end Lockstep

end ModelAssembly.Outcome
