import DomainCodegen.Members
import DomainCodegen.Number.Binary64

/-!
# JSON values

Documents as data. The members of an object keep their order, and a key is looked up at its first
occurrence; `Members.set` keeps keys distinct.
-/

namespace DomainCodegen

inductive Json where
  | null
  | bool (b : Bool)
  | int (n : Int)
  | float (x : Binary64)
  | string (s : String)
  | array (items : List Json)
  | object (members : List (String × Json))
  deriving Inhabited

namespace Json

/-- The value of a key; nothing when the document is not an object. -/
def get? (key : String) : Json → Option Json
  | object members => members.lookup key
  | _ => none

/-- The value of the first of several keys that an object has. A key whose value is `null` counts
as present. -/
def firstOf? (keys : List String) (doc : Json) : Option Json :=
  keys.findSome? fun key => doc.get? key

/-- `firstOf?` with `null` for an object that has none of the keys. -/
def firstOf (keys : List String) (doc : Json) : Json := (doc.firstOf? keys).getD null

/-- Everything counts as true but `null`, `false`, a zero and an empty text, array or object. -/
def isTrue : Json → Bool
  | null => false
  | bool b => b
  | int n => n ≠ 0
  | float (.finite _ m _) => m ≠ 0
  | float _ => true
  | string s => s ≠ ""
  | array items => !items.isEmpty
  | object members => !members.isEmpty

def isNull : Json → Bool
  | null => true
  | _ => false

theorem sizeOf_of_get? {key : String} {doc value : Json} (h : doc.get? key = some value) :
    sizeOf value < sizeOf doc := by
  cases doc with
  | object members =>
    have hm : (key, value) ∈ members := by
      simp only [get?] at h
      induction members with
      | nil => simp at h
      | cons p r ih =>
        obtain ⟨k, v⟩ := p
        rw [List.lookup_cons] at h
        split at h
        · rename_i hk
          simp_all
        · exact List.mem_cons_of_mem _ (ih h)
    have := List.sizeOf_lt_of_mem hm
    simp only [Prod.mk.sizeOf_spec, object.sizeOf_spec] at this ⊢
    omega
  | _ => simp [get?] at h

theorem sizeOf_of_firstOf? {keys : List String} {doc value : Json}
    (h : doc.firstOf? keys = some value) : sizeOf value < sizeOf doc := by
  obtain ⟨key, _, hk⟩ := List.exists_of_findSome?_eq_some h
  exact sizeOf_of_get? hk

end Json

end DomainCodegen
