import ModelAssembly.Proofs.Declarations
/-!
Facets that are set over others. What is set last counts, in the place where its name first arrived.
Both rules together make it no matter how a row of sets is bracketed, so that the facets of a model
can be collected scope by scope.

Main statements: `OrderedMap.get?_insertAll_eq_some_iff` for what a list of entries leaves behind;
`Declarations.facets_ofTrees_eq_foldl` for the trees of a model; `Facets.override_in_order`.
-/

namespace ModelAssembly

section

variable {κ α : Type} [DecidableEq κ] {m : OrderedMap κ α} {es : List (κ × α)} {k : κ} {v : α}

-- The last entry of a key counts, and what was there before if there is none.
theorem OrderedMap.get?_insertAll_eq_some_iff : (m.insertAll es).get? k = some v ↔
    (∃ before after, es = before ++ (k, v) :: after ∧ k ∉ after.map Prod.fst) ∨
      k ∉ es.map Prod.fst ∧ m.get? k = some v := by
  rw [get?_insertAll, Option.or_eq_some_iff, Declarations.lookup_reverse_eq_some_iff,
    Declarations.lookup_reverse_eq_none_iff]

end

namespace Declarations

theorem foldl_merge_facets (facets : Facets) (scopes : List Element) :
    (scopes.map (·.facets)).foldl .merge facets =
      facets.insertAll (scopes.flatMap (·.facets.entries)) := by
  induction scopes generalizing facets
  case nil => rfl
  case cons scope scopes hi =>
    rw [List.map_cons, List.foldl_cons, hi, List.flatMap_cons, OrderedMap.insertAll_append]
    rfl

-- The facets of each scope of each tree are set over those of the scopes that come before it.
theorem facets_ofTrees_eq_foldl (trees : List Element) :
    (ofTrees trees).1.facets =
      ((trees.reverse.flatMap scopes).map (·.facets)).foldl .merge ∅ := by
  rw [facets_ofTrees, foldl_merge_facets, List.flatMap_assoc]
  rfl

end Declarations

-- What comes of one set of facets over another, of three of them in a row, of one over itself, of
-- any list of names and expressions and of removing a name from that, and of all the scopes of the
-- trees of a model.
theorem Facets.override_in_order (a b c : Facets) (es : List (String × String))
    (trees : List Element) :
    ((∀ name, (a.merge b).get? name = (b.get? name).or (a.get? name)) ∧
      (a.merge b).keys = a.keys ++ b.keys.filter (· ∉ a.keys) ∧ (a.merge b).keys.Nodup) ∧
    (a.merge b).merge c = a.merge (b.merge c) ∧
    a.merge a = a ∧
    ((a.insertAll es).keys = (a.keys ++ es.map Prod.fst).eraseDups ∧
      ∀ name expression, (a.insertAll es).get? name = some expression ↔
        (∃ before after, es = before ++ (name, expression) :: after ∧
          name ∉ after.map Prod.fst) ∨
        name ∉ es.map Prod.fst ∧ a.get? name = some expression) ∧
    (∀ name, ((a.insertAll es).erase name).keys = (a.insertAll es).keys.filter (· ≠ name) ∧
      (∀ other, ((a.insertAll es).erase name).get? other =
        if name = other then none else (a.insertAll es).get? other) ∧
      (a.insertAll es).erase name = (a.erase name).insertAll (es.filter (·.1 ≠ name))) ∧
    (Declarations.ofTrees trees).1.facets =
      ((trees.reverse.flatMap Declarations.scopes).map (·.facets)).foldl .merge ∅ := by
  refine ⟨⟨?values, ?keys, ?nodup⟩, ?assoc, ?self, ⟨?places, ?lasts⟩, ?removal, ?collected⟩
  case values => exact a.get?_merge b
  case keys => exact a.keys_merge b
  case nodup => exact (a.merge b).nodup_keys
  case assoc => exact a.merge_assoc b c
  case self => exact a.merge_self
  case places => exact a.keys_insertAll es
  case lasts => exact fun _ _ => OrderedMap.get?_insertAll_eq_some_iff
  case removal =>
    intro name
    exact ⟨OrderedMap.keys_erase _ name, OrderedMap.get?_erase _ name, a.erase_insertAll es name⟩
  case collected => exact Declarations.facets_ofTrees_eq_foldl trees

example : (OrderedMap.ofList [("torus", "false"), ("seed", "1"), ("torus", "true")]).entries =
    [("torus", "true"), ("seed", "1")] := by
  decide

end ModelAssembly
