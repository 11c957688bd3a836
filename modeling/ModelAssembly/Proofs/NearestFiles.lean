import ModelAssembly.Element
import Mathlib.Data.List.Infix
/-!
The files that the elements of a syntax tree come from. An element that does not tell counts as
read from where its nearest ancestor was that does. As files only fill gaps, what a part of a tree
makes of the files in it by itself agrees with what comes down from above later.

Main statements: `at?_withFileOf` for what comes down to each place; `withFileOf_withFileOf` for
files that come down one after the other; `nearest_file_prevails`.
-/

namespace ModelAssembly.Element

variable {e : Element} {file : Option String}

-- The element that `path` leads to: each step is the place of a child.
def at? (e : Element) : List Nat → Option Element
  | [] => some e
  | i :: path => e.children[i]?.bind (·.at? path)

-- The file of the element at `path`, or else that of the nearest of its ancestors that has one.
def nearestFile? (e : Element) (path : List Nat) : Option String :=
  path.inits.reverse.findSome? fun above => (e.at? above).bind (·.provenance.file)

-- What is written of `e` itself.
def bare (e : Element) : Element := { e with children := [] }

-- Changes the element at `path`, if there is one.
def alterAt (change : Element → Element) (e : Element) : List Nat → Element
  | [] => change e
  | i :: path => { e with children := e.children.modify i (·.alterAt change path) }

-- One level at a time.
theorem withFileOf_eq (file : Option String) (e : Element) :
    e.withFileOf file =
      { e with
        children := e.children.map (withFileOf (e.provenance.file.or file))
        provenance.file := e.provenance.file.or file } := by
  cases e
  simp only [withFileOf, withFileOfAll_eq_map]

theorem children_withFileOf :
    (e.withFileOf file).children = e.children.map (withFileOf (e.provenance.file.or file)) := by
  rw [withFileOf_eq]

theorem nearestFile?_nil : e.nearestFile? [] = e.provenance.file := by
  simp [nearestFile?, at?]

theorem nearestFile?_cons {i : Nat} {x : Element} (h : e.children[i]? = some x) (path : List Nat) :
    e.nearestFile? (i :: path) = (x.nearestFile? path).or e.provenance.file := by
  have hat (above : List Nat) : e.at? (i :: above) = x.at? above := by
    rw [at?, h, Option.bind_some]
  rw [nearestFile?, List.inits_cons, List.reverse_cons, List.findSome?_append, ← List.map_reverse,
    List.findSome?_map]
  simp only [Function.comp_def, hat]
  simp [nearestFile?, at?]

-- The file that is handed down counts where no other one is on the way.
theorem at?_withFileOf (file : Option String) (e : Element) (path : List Nat) :
    ((e.withFileOf file).at? path).map bare =
      (e.at? path).map fun x =>
        { x.bare with provenance.file := (e.nearestFile? path).or file } := by
  induction path generalizing e file
  case nil =>
    rw [nearestFile?_nil, withFileOf_eq]
    rfl
  case cons i path hi =>
    rw [at?, at?, children_withFileOf, List.getElem?_map]
    cases hx : e.children[i]?
    case none => rfl
    case some x =>
      rw [nearestFile?_cons hx, Option.or_assoc]
      exact hi _ x

theorem withFileOf_withFileOf (file file' : Option String) (e : Element) :
    (e.withFileOf file).withFileOf file' = e.withFileOf (file.or file') := by
  induction e using children_induction generalizing file file'
  case h e hi =>
    have hown : (e.provenance.file.or file).or file' = e.provenance.file.or (file.or file') :=
      Option.or_assoc
    have hchildren : (e.children.map (withFileOf (e.provenance.file.or file))).map
        (withFileOf (e.provenance.file.or (file.or file'))) =
          e.children.map (withFileOf (e.provenance.file.or (file.or file'))) := by
      rw [List.map_map]
      refine List.map_congr_left fun x hx => ?_
      rw [Function.comp_apply, hi x hx, ← hown, ← Option.or_assoc, Option.or_self]
    rw [withFileOf_eq file', withFileOf_eq file, withFileOf_eq (file.or file')]
    simp only [hown, hchildren]

-- A change that makes no difference to what comes down to an element, wherever it is.
theorem withFileOf_alterAt {change : Element → Element}
    (h : ∀ file x, (change x).withFileOf file = x.withFileOf file) (file : Option String)
    (e : Element) (path : List Nat) :
    (e.alterAt change path).withFileOf file = e.withFileOf file := by
  induction path generalizing e file
  case nil => exact h file e
  case cons i path hi =>
    have hchildren (own : Option String) :
        (e.children.modify i (·.alterAt change path)).map (withFileOf own) =
          e.children.map (withFileOf own) := by
      apply List.ext_getElem?
      intro j
      rw [List.getElem?_map, List.getElem?_map, List.getElem?_modify]
      cases e.children[j]?
      case none => rfl
      case some x => by_cases hj : i = j <;> simp [hj, hi]
    rw [alterAt, withFileOf_eq, withFileOf_eq file e]
    simp only [hchildren]

-- Files come down to the elements of a tree from their nearest ancestors, once and for all, and
-- nothing else about the tree changes. Files may have come down any parts of the tree before, in
-- whatever order.
theorem nearest_file_prevails (t : Element) :
    (∀ path, (t.inheritFile.at? path).map bare =
      (t.at? path).map fun e => { e.bare with provenance.file := t.nearestFile? path }) ∧
    t.inheritFile.inheritFile = t.inheritFile ∧
    ∀ paths : List (List Nat), (paths.foldl (alterAt inheritFile) t).inheritFile = t.inheritFile := by
  have hagain (file : Option String) (e : Element) :
      e.inheritFile.withFileOf file = e.withFileOf file := withFileOf_withFileOf none file e
  refine ⟨fun path => ?nearest, hagain none t, fun paths => ?parts⟩
  case nearest =>
    have hroot : (t.nearestFile? path).or none = t.nearestFile? path := Option.or_none
    rw [inheritFile, at?_withFileOf, hroot]
  case parts =>
    induction paths generalizing t
    case nil => rfl
    case cons path paths hi =>
      exact (hi (t.alterAt inheritFile path)).trans (withFileOf_alterAt hagain none t path)

-- What is in the species `other` comes from the file of the species, not from that of the model.
example :
    let age : Element := { kind := .member .var, name := some "age" }
    let prey : Element := { kind := .species, name := some "prey", children := [age] }
    let other : Element := { kind := .species, name := some "other", children := [age] }
    let main : Element := { kind := .model, children := [prey, other.setFile "other.gaml"] }
    ([[], [0, 0], [1], [1, 0]].map fun path =>
      ((main.setFile "main.gaml").at? path).bind (·.provenance.file)) =
        [some "main.gaml", some "main.gaml", some "other.gaml", some "other.gaml"] := by
  decide

end ModelAssembly.Element
