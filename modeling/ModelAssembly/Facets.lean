import ModelAssembly.OrderedMap
import ModelAssembly.Text.Blank
/-!
Facets: the named expressions of a declaration. Assembly moves expressions about and reads a few
of them as plain words, but evaluates none, so an expression is its source text.
-/

namespace ModelAssembly

abbrev Facets := OrderedMap String String

namespace Facets

-- The literal `true`, blanks around it aside.
def isTrueLiteral (expression : String) : Bool := Text.trim expression == "true"

-- The facet is there and is the literal `true`.
def isTrue (facets : Facets) (name : String) : Bool := (facets.get? name).any isTrueLiteral

end Facets
end ModelAssembly
