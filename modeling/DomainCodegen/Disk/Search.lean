import DomainCodegen.Disk.File
import DomainCodegen.Text.Wildcard

/-!
# Searching a disk

`scan` lists the files with an extension at any depth below a directory, in the order of their
paths. The extension is the end of a path pattern, so it may hold wildcards and slashes of its own.
A part of a pattern without wildcards is looked up as it stands, so it may be `..` as well.
-/

namespace DomainCodegen.Disk

/-! ## Patterns -/

/-- One part of a path pattern: any number of directories, the names that a wildcard pattern
covers, or one name. -/
inductive PatternPart where
  | anyDepth
  | names (pattern : List Text.Wildcard)
  | name (name : String)
  deriving DecidableEq, Repr

/-- A path pattern. One that ends in a slash asks for directories. -/
structure Pattern where
  parts : List PatternPart
  endsInSlash : Bool := false
  deriving DecidableEq, Repr

/-- Whether a text holds two stars in a row. -/
def hasDoubleStar : List Char → Bool
  | '*' :: '*' :: _ => true
  | _ :: r => hasDoubleStar r
  | [] => false

def isWild (c : Char) : Bool := c = '*' || c = '?' || c = '['

/-- Two stars stand for any number of directories, and are allowed only as a whole part. -/
def PatternPart.ofChars? (cs : List Char) : Option PatternPart :=
  if cs = ['*', '*'] then some .anyDepth
  else if hasDoubleStar cs then none
  else if cs.any isWild then some (.names (Text.Wildcard.items cs))
  else some (.name (String.ofList cs))

/-- The pattern of the files with an extension. -/
def Pattern.ofExtension? (extension : String) : Option Pattern :=
  let parts := (Path.ofString ("*" ++ extension)).names.mapM fun name =>
    PatternPart.ofChars? name.toList
  parts.map fun parts =>
    { parts := .anyDepth :: parts, endsInSlash := extension.toList.getLast? = some '/' }

/-! ## Following a pattern -/

/-- The names in a directory with what they stand for, in order. -/
def children (disk : Disk) (place : Location) : List (String × Entry) :=
  ((disk.below place).filterMap fun (names, entry) =>
    match names with
    | [name] => some (name, entry)
    | _ => none).mergeSort fun a b => decide (a.1 ≤ b.1)

/-- The directories below a location, as seen from it, in order. -/
def directoriesBelow (disk : Disk) (place : Location) : List (List String) :=
  ((disk.below place).filterMap fun (names, entry) =>
    if entry = .directory then some names else none).mergeSort Path.namesLe

/-- A path that leads to something, and where that is. -/
structure Spot where
  path : Path
  place : Location

/-- A spot in a directory, or the directory that it is in. -/
def Spot.step (spot : Spot) (name : String) : Spot :=
  { path := spot.path.extend [name]
    place := if name = ".." then spot.place.dropLast else spot.place ++ [name] }

/-- A spot below a directory. -/
def Spot.descend (spot : Spot) (names : List String) : Spot :=
  { path := spot.path.extend names, place := spot.place ++ names }

/-- What is found from a directory, unless its path is too long for it to be listed. -/
def Spot.finding (spot : Spot) (found : List Spot) : Except Fault (List Spot) :=
  if pathLimit < spot.path.text.utf8ByteSize then .error (.refused .nameTooLong spot.path)
  else .ok found

variable [Surrogates]

/-- Where one part of a pattern leads from a directory. If more parts follow, only to
directories. -/
def follow (disk : Disk) (onward : Bool) (spot : Spot) : PatternPart → Except Fault (List Spot)
  | .anyDepth => spot.finding (spot :: (disk.directoriesBelow spot.place).map spot.descend)
  | .names pattern =>
    spot.finding <| (disk.children spot.place).filterMap fun (name, entry) =>
      if (!onward || entry = .directory) && Text.Wildcard.covers pattern name.toList then
        some (spot.step name)
      else none
  | .name name =>
    let next := spot.step name
    (if onward then disk.isDirectory next.path else disk.holds next.path).map fun there =>
      if there then [next] else []

/-- Where the parts of a pattern lead from a directory. -/
def select (disk : Disk) (endsInSlash : Bool) : List PatternPart → Spot → Except Fault (List Path)
  | [], spot => .ok [spot.path]
  | part :: r, spot =>
    match disk.follow (endsInSlash || !r.isEmpty) spot part with
    | .error fault => .error fault
    | .ok spots => (spots.mapM (disk.select endsInSlash r)).map List.flatten

/-! ## Files -/

/-- The files among paths. -/
def filesAmong (disk : Disk) : List Path → Except Fault (List Path)
  | [] => .ok []
  | path :: r =>
    match disk.isFile path with
    | .error fault => .error fault
    | .ok true => (disk.filesAmong r).map (path :: ·)
    | .ok false => disk.filesAmong r

/-- The files that a pattern leads to, in order and each once. A path that is no directory leads
nowhere. -/
def find (disk : Disk) (pattern : Pattern) (root : Path) : Except Fault (List Path) :=
  match disk.isDirectory root, disk.locate root with
  | .ok true, .ok place =>
    match disk.select pattern.endsInSlash pattern.parts { path := root, place } with
    | .error fault => .error fault
    | .ok paths => (disk.filesAmong paths.eraseDups).map fun files => files.mergeSort Path.le
  | .error fault, _ => .error fault
  | _, _ => .ok []

/-- Why a search failed. -/
inductive SearchFault where
  | doubleStar
  | disk (fault : Fault)
  deriving DecidableEq, Repr

def SearchFault.message : SearchFault → String
  | doubleStar => "Invalid pattern: '**' can only be an entire path component"
  | disk fault => fault.message

/-- The files with an extension at any depth below a directory. -/
def scan (disk : Disk) (root : Path) (extension : String) : Except SearchFault (List Path) :=
  match Pattern.ofExtension? extension with
  | none => .error .doubleStar
  | some pattern => (disk.find pattern root).mapError .disk

end DomainCodegen.Disk
