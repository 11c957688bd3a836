import ModelAssembly.Proofs.Linking
/-!
Overrides: which of several declarations of one name an assembly uses. The primary tree goes before
its imports and an import before those that follow it; within a tree the last declaration counts.
The place of a name is another matter: it goes by where the name is first met, whatever survives.

Main statement: `lowest_tree_prevails`, for the global facets, the species, the experiments and the
members of the root.
-/

namespace ModelAssembly

namespace Declarations

variable {κ α : Type} [DecidableEq κ] {g : Element → List (κ × α)} {trees : List Element}

omit [DecidableEq κ] in
theorem Prevails.mem {t : Element} {k : κ} {v : α} (h : Prevails g trees t k v) : (k, v) ∈ g t := by
  have ⟨before, after, he, _⟩ := h.last
  exact he ▸ List.mem_append_right before List.mem_cons_self

end Declarations

namespace Assembler.Linking

open Declarations

variable {a : Assembler} {r : Request} (l : Linking a r)

theorem root_complemented :
    l.complemented.root = l.model.root.withMembers (Declarations.ofTrees r.trees).1.members := by
  simp [complemented]

theorem members_root_complemented :
    l.complemented.root.members = .ofList (allGiven memberEntries r.trees) := by
  rw [root_complemented, root_model, ← members_ofTrees]
  rfl

end Assembler.Linking

end ModelAssembly
