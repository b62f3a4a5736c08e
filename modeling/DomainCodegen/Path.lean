/-!
# Paths

A path is where it starts and the names that lead on from there. Reading a text drops empty names
and names that are a single dot, so that two spellings of one path are equal; `..` is kept, since
what it means depends on the disk. `Path.normal` is for places where it does not.
-/

namespace DomainCodegen

/-- Where a path starts. Exactly two slashes at the front of a text stay two. -/
inductive Path.Start where
  | here
  | slash
  | twoSlashes
  deriving DecidableEq, Inhabited, Repr

structure Path where
  start : Path.Start := .here
  names : List String := []
  deriving DecidableEq, Inhabited, Repr

namespace Path

def Start.text : Start → String
  | here => ""
  | slash => "/"
  | twoSlashes => "//"

def startOf : List Char → Start
  | '/' :: '/' :: '/' :: _ => .slash
  | '/' :: '/' :: _ => .twoSlashes
  | '/' :: _ => .slash
  | _ => .here

def isName (cs : List Char) : Bool := cs ≠ [] ∧ cs ≠ ['.']

def ofString (s : String) : Path :=
  { start := startOf s.toList
    names := ((s.toList.splitOn '/').filter isName).map String.ofList }

/-- The path of the directory that relative paths start from. -/
def current : Path := {}

def text (p : Path) : String :=
  if p = current then "." else p.start.text ++ "/".intercalate p.names

def isAbsolute (p : Path) : Bool := p.start ≠ .here

/-- A path seen from another one; an absolute path is the same from everywhere. -/
def join (p q : Path) : Path := if q.isAbsolute then q else { p with names := p.names ++ q.names }

/-- The path that more names lead to. -/
def extend (p : Path) (names : List String) : Path := { p with names := p.names ++ names }

/-- The last name, empty for a path without names. -/
def name (p : Path) : String := p.names.getLast?.getD ""

def parent (p : Path) : Path := { p with names := p.names.dropLast }

/-- The path of a neighbour. -/
def withName (p : Path) (name : String) : Path := { p with names := p.names.dropLast ++ [name] }

/-- Takes every `..` together with the name before it; `back` holds the names so far, the last one
first. Above the top there is the top itself. -/
def normalFrom (back : List String) : List String → List String
  | [] => back.reverse
  | name :: r => if name = ".." then normalFrom back.tail r else normalFrom (name :: back) r

/-- Names that start at the top, without `..`. -/
def normalNames (names : List String) : List String := normalFrom [] names

/-- An absolute path without `..`, for a path seen from a directory. -/
def normal (home p : Path) : Path :=
  let q := home.join p
  { q with names := normalNames q.names }

/-- Whether a name of the path holds a character of a kind. -/
def hasAny (p : Path) (kind : Char → Bool) : Bool := p.names.any fun name => name.toList.any kind

def hasNul (p : Path) : Bool := p.hasAny (· == '\x00')

/-- Whether a list of names comes before another one or is equal to it: the first names that differ
decide, and a list comes before its continuations. -/
def namesLe : List String → List String → Bool
  | [], _ => true
  | _ :: _, [] => false
  | a :: r, b :: s => if a = b then namesLe r s else decide (a < b)

/-- Paths are ordered name by name. -/
def le (p q : Path) : Bool := namesLe (p.start.text :: p.names) (q.start.text :: q.names)

example : (ofString "a//./b/").text = "a/b" := by decide

example : ((ofString "/x").join (ofString "../y")).text = "/x/../y" := by decide

example : (normal (ofString "/x") (ofString "../y/z/..")).text = "/y" := by decide

end Path

end DomainCodegen
