import DomainCodegen.Json.Display
import DomainCodegen.Name

/-!
# Package names

Segments of small letters and digits, each starting with a letter, joined by single dots.
-/

namespace DomainCodegen.PackageName

def isSegment : List Char → Bool
  | [] => false
  | c :: r => c.isLower && r.all fun d => d.isLower || d.isDigit

def isValidChars (cs : List Char) : Bool := ((Name.matched cs).splitOn '.').all isSegment

def isValid (s : String) : Bool := isValidChars s.toList

/-- A text that is no package name. -/
structure FormatError where
  given : String
  deriving DecidableEq, Repr

variable [Surrogates]

def FormatError.message (e : FormatError) : String :=
  "Invalid package name " ++ Text.quoted e.given ++
    ": expected lowercase dotted segments such as com.example.orderbc.domain.orderaggr"

/-- The package name that a value is. -/
def ofJson : Json → Except FormatError String
  | .string s => if isValid s then .ok s else .error ⟨s⟩
  | value => .error ⟨value.plain⟩

end DomainCodegen.PackageName
