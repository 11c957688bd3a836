import ModelAssembly.Assembly.Outcome
import Mathlib.Data.List.Induction
/-!
Runs of assembly steps. The result of an outcome, its diagnostics aside, is a run that stops at the
first error; loops over steps are reasoned about through what a prefix of the loop achieves.

Main statements: `result_bind`, `result_foldlM`; the loop rules `foldlM_eq_ok_rule` for runs that
came to an end and `Outcome.foldlM_rule` for loops that always do.
-/

namespace ModelAssembly

section

variable {ε σ α β : Type}

theorem bind_eq_ok_iff {x : Except ε α} {f : α → Except ε β} {b : β} :
    x >>= f = .ok b ↔ ∃ a, x = .ok a ∧ f a = .ok b := by
  cases x <;> simp [bind, Except.bind]

theorem mapError_eq_ok_iff {ε' : Type} {x : Except ε α} {f : ε → ε'} {a : α} :
    x.mapError f = .ok a ↔ x = .ok a := by
  cases x <;> simp [Except.mapError]

theorem toOption_eq_some_iff {x : Except ε α} {a : α} : x.toOption = some a ↔ x = .ok a := by
  cases x <;> simp [Except.toOption]

theorem mapError_bind {ε' : Type} (x : Except ε α) (f : α → Except ε β) (g : ε → ε') :
    (x >>= f).mapError g = x.mapError g >>= fun a => (f a).mapError g := by
  cases x <;> rfl

-- What holds at the start and is kept by each step holds when a run comes to its end.
theorem foldlM_eq_ok_rule {P : List β → σ → Prop} {f : σ → β → Except ε σ} {l : List β} {s s' : σ}
    (h : l.foldlM f s = .ok s') (start : P [] s)
    (step : ∀ pre x post s s', l = pre ++ x :: post → P pre s → f s x = .ok s' →
      P (pre ++ [x]) s') :
    P l s' := by
  induction l using List.reverseRecOn generalizing s'
  case nil =>
    cases h
    exact start
  case append_singleton l x hi =>
    rw [List.foldlM_append] at h
    have ⟨t, ht, hx⟩ := bind_eq_ok_iff.mp h
    simp only [List.foldlM_cons, List.foldlM_nil, bind_pure] at hx
    have hp := hi ht fun pre y post s s' he => step pre y (post ++ [x]) s s' (by simp [he])
    exact step l x [] t s' rfl hp hx

-- A loop whose steps go through under an invariant goes through, and keeps the invariant.
theorem exists_foldlM_eq_ok {P : σ → Prop} {f : σ → β → Except ε σ} {l : List β} {s : σ}
    (start : P s) (step : ∀ s, P s → ∀ x ∈ l, ∃ s', f s x = .ok s' ∧ P s') :
    ∃ s', l.foldlM f s = .ok s' ∧ P s' := by
  induction l generalizing s
  case nil => exact ⟨s, rfl, start⟩
  case cons x l hi =>
    have ⟨t, ht, hp⟩ := step s start x List.mem_cons_self
    have ⟨s', hs', hp'⟩ := hi hp fun t ht y hy => step t ht y (List.mem_cons_of_mem x hy)
    exact ⟨s', by rw [List.foldlM_cons, ht]; exact hs', hp'⟩

end

namespace Outcome

variable {α β σ : Type}

theorem result_bind (x : Outcome α) (f : α → Outcome β) :
    (x >>= f).result = x.result >>= fun a => (f a).result := by
  rw [bind_eq]
  cases x.result <;> rfl

@[simp] theorem result_ofModel (r : Except ModelError α) :
    (ofModel r).result = r.mapError .refused := rfl

theorem bind_eq_ok_iff {x : Outcome α} {f : α → Outcome β} {b : β} :
    (x >>= f).result = .ok b ↔ ∃ a, x.result = .ok a ∧ (f a).result = .ok b := by
  rw [result_bind]
  exact ModelAssembly.bind_eq_ok_iff

theorem bind_eq_error_iff {x : Outcome α} {f : α → Outcome β} {e : AssemblyError} :
    (x >>= f).result = .error e ↔
      x.result = .error e ∨ ∃ a, x.result = .ok a ∧ (f a).result = .error e := by
  rw [bind_eq]
  cases x.result <;> simp

theorem exists_of_isOk {x : Outcome α} (h : x.result.isOk = true) : ∃ a, x.result = .ok a := by
  cases hr : x.result
  case ok a => exact ⟨a, rfl⟩
  case error => simp [hr, Except.isOk, Except.toBool] at h

theorem ofModel_eq_ok_iff {r : Except ModelError α} {a : α} :
    (ofModel r).result = .ok a ↔ r = .ok a :=
  mapError_eq_ok_iff

theorem result_foldlM (f : σ → β → Outcome σ) (s : σ) (l : List β) :
    (l.foldlM f s).result = l.foldlM (fun s x => (f s x).result) s := by
  induction l generalizing s
  case nil => rfl
  case cons x l hi => simp only [List.foldlM_cons, result_bind, hi]

theorem bind_of_eq {x : Outcome α} {f : α → Outcome β} {a : α} {ds : List Diagnostic}
    (h : x = ⟨.ok a, ds⟩) : x >>= f = ⟨(f a).result, ds ++ (f a).diagnostics⟩ := by
  rw [h, bind_eq]

theorem diagnostics_bind {x : Outcome α} {f : α → Outcome β} {a : α} (h : x.result = .ok a) :
    (x >>= f).diagnostics = x.diagnostics ++ (f a).diagnostics := by
  rw [bind_eq, h]

theorem report_bind (ds : List Diagnostic) (x : Outcome α) :
    (report ds >>= fun _ => x) = ⟨x.result, ds ++ x.diagnostics⟩ := rfl

@[simp] theorem ofModel_ok (a : α) : ofModel (.ok a) = pure a := rfl

theorem bind_congr_of_ok {x : Outcome α} {f g : α → Outcome β}
    (h : ∀ a, x.result = .ok a → f a = g a) : x >>= f = x >>= g := by
  rw [bind_eq, bind_eq]
  cases hr : x.result
  case error => rfl
  case ok a => simp only [h a hr]

-- A loop each of whose steps succeeds under an invariant succeeds, and the invariant holds of its
-- result and of the diagnostics that it raised.
theorem foldlM_rule {P : List β → σ → List Diagnostic → Prop} {f : σ → β → Outcome σ}
    {l : List β} {s : σ} (start : P [] s [])
    (step : ∀ pre x post s ds, l = pre ++ x :: post → P pre s ds →
      ∃ s' ds', f s x = ⟨.ok s', ds'⟩ ∧ P (pre ++ [x]) s' (ds ++ ds')) :
    ∃ s' ds, l.foldlM f s = ⟨.ok s', ds⟩ ∧ P l s' ds := by
  induction l using List.reverseRecOn
  case nil => exact ⟨s, [], rfl, start⟩
  case append_singleton l x hi =>
    have ⟨t, ds, ht, hp⟩ := hi fun pre y post s ds he =>
      step pre y (post ++ [x]) s ds (by simp [he])
    have ⟨t', ds', hx, hp'⟩ := step l x [] t ds rfl hp
    refine ⟨t', ds ++ ds', ?_, hp'⟩
    rw [List.foldlM_append, bind_of_eq ht]
    simp [hx]

end Outcome
end ModelAssembly
