/-!
# Named values in order

A list of named values in which a name stands once. A value that is set again stays in its first
place.
-/

namespace DomainCodegen.Members

/-- The members with a name set: in place if the name is there, at the end otherwise. -/
def set {α : Type} (name : String) (value : α) : List (String × α) → List (String × α)
  | [] => [(name, value)]
  | (k, v) :: r => if k = name then (name, value) :: r else (k, v) :: set name value r

end DomainCodegen.Members
