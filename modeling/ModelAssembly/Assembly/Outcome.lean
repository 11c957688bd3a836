import ModelAssembly.Description
import ModelAssembly.Diagnostic.Basic
/-!
Outcomes: what a step of assembly comes to, a result or the reason why there is none, and the
diagnostics that it raised either way. Steps follow each other with `>>=`: diagnostics add up in
order, and the first failure ends the run.
-/

namespace ModelAssembly

inductive AssemblyError where
  | emptyInput
  | missingPlugins (model : String) (plugins : List String)
  | experimentFailed (name : String)
  | modelFailed (name : String)
  | graftRefused (graft model : String) (reason : ModelError)
  | refused (reason : ModelError)
deriving DecidableEq

namespace AssemblyError

def message : AssemblyError → String
  | emptyInput => "no syntax trees to assemble"
  | missingPlugins model plugins =>
    s!"model `{model}` requires unavailable plugins: " ++ ", ".intercalate plugins
  | experimentFailed name => s!"experiment `{name}` failed to finalize"
  | modelFailed name => s!"model `{name}` failed to finalize"
  | graftRefused graft model _ => s!"cannot graft model `{model}` as `{graft}`"
  | refused reason => reason.message

end AssemblyError

structure Outcome (α : Type) where
  result : Except AssemblyError α
  diagnostics : List Diagnostic := []

namespace Outcome

variable {α β : Type}

@[ext]
theorem ext {x y : Outcome α} (hr : x.result = y.result) (hd : x.diagnostics = y.diagnostics) :
    x = y := by
  cases x; cases y; cases hr; cases hd; rfl

def fail (error : AssemblyError) : Outcome α := ⟨.error error, []⟩

def report (ds : List Diagnostic) : Outcome Unit := ⟨.ok (), ds⟩

def ofExcept : Except AssemblyError α → Outcome α := fun r => ⟨r, []⟩

-- An operation on descriptions that assembly cannot do without.
def ofModel (r : Except ModelError α) : Outcome α := ofExcept (r.mapError .refused)

instance : Monad Outcome where
  pure a := ⟨.ok a, []⟩
  bind x f :=
    match x.result with
    | .ok a => ⟨(f a).result, x.diagnostics ++ (f a).diagnostics⟩
    | .error e => ⟨.error e, x.diagnostics⟩

theorem bind_eq (x : Outcome α) (f : α → Outcome β) :
    x >>= f = match x.result with
      | .ok a => ⟨(f a).result, x.diagnostics ++ (f a).diagnostics⟩
      | .error e => ⟨.error e, x.diagnostics⟩ := rfl

@[simp] theorem result_pure (a : α) : (pure a : Outcome α).result = .ok a := rfl

@[simp] theorem diagnostics_pure (a : α) : (pure a : Outcome α).diagnostics = [] := rfl

instance : LawfulMonad Outcome := LawfulMonad.mk' Outcome
  (fun x => by
    obtain ⟨r, ds⟩ := x
    cases r <;> simp [Functor.map])
  (fun _ _ => by simp [bind_eq])
  (fun x f g => by
    obtain ⟨r, ds⟩ := x
    cases r with
    | error e => simp [bind_eq]
    | ok a =>
      cases h : (f a).result <;> simp [bind_eq, h])

end Outcome
end ModelAssembly
