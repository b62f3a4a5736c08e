import DomainCodegen.Disk.Directory

/-!
# Files on a disk

Reading, writing, creating, moving and removing single files, and the listing of a whole disk.
An operation on one file that fails leaves the disk as it was.
-/

namespace DomainCodegen.Disk

variable [Surrogates]

def fileAt (disk : Disk) (path : Path) : Except Fault (List UInt8) :=
  match disk.locate path with
  | .error fault => .error fault
  | .ok place =>
    match disk.get? place with
    | none => .error (.refused .missing path)
    | some .directory => .error (.refused .isDirectory path)
    | some (.file bytes) => .ok bytes

/-- Writes a file in a directory that is there, in place of a file of that name. -/
def writeFile (disk : Disk) (path : Path) (bytes : List UInt8) : Except Fault Disk :=
  match disk.locate path with
  | .error fault => .error fault
  | .ok place =>
    if disk.get? place = some .directory then .error (.refused .isDirectory path)
    else .ok (disk.set place (.file bytes))

/-- An empty file where nothing is. -/
def createFile (disk : Disk) (path : Path) : Except Fault Disk :=
  match disk.locate path with
  | .error fault => .error fault
  | .ok place =>
    if (disk.get? place).isSome then .error (.refused .taken path)
    else .ok (disk.set place (.file []))

/-- The disk without what is at a path, if anything is. -/
def removeFile (disk : Disk) (path : Path) : Disk :=
  match disk.locate path with
  | .error _ => disk
  | .ok place => disk.erase place

/-- A fault of one of the two paths of a move. -/
def Fault.ofMove (source target : Path) : Fault → Fault
  | refused reason _ => moveRefused reason source target
  | fault => fault

/-- Puts a file in the place of another one, or where nothing is. -/
def moveFile (disk : Disk) (source target : Path) : Except Fault Disk :=
  match disk.fileAt source, disk.locate source, disk.locate target with
  | .error fault, _, _ => .error (fault.ofMove source target)
  | _, .error fault, _ => .error (fault.ofMove source target)
  | _, _, .error fault => .error (fault.ofMove source target)
  | .ok bytes, .ok origin, .ok place =>
    if target.name = "" ∨ target.name = ".." then .error (.moveRefused .busy source target)
    else if disk.get? place = some .directory then
      .error (.moveRefused .isDirectory source target)
    else .ok ((disk.erase origin).set place (.file bytes))

/-! ## Whole trees -/

/-- Writes a file and the directories that it needs. -/
def putFile (disk : Disk) (path : Path) (bytes : List UInt8) : Except Fault Unit × Disk :=
  match disk.makeDirectories path.parent with
  | (.error fault, made) => (.error fault, made)
  | (.ok (), made) =>
    match made.writeFile path bytes with
    | .error fault => (.error fault, made)
    | .ok written => (.ok (), written)

/-- The entries that are not below a location. -/
def notBelow (place : Location) (entries : List (Location × Entry)) : List (Location × Entry) :=
  entries.filter fun e => e.1 = place || !place.isPrefixOf e.1

/-- Why a directory that has been emptied cannot be removed itself by the path that led to it. -/
def removalFault? (path : Path) : Option Fault :=
  if path = .current then some (.refused .invalid path)
  else if path.name = ".." then some (.refused .missing path)
  else none

/-- Removes a file, or a directory with all that is below it. -/
def removeTree (disk : Disk) (path : Path) : Except Fault Unit × Disk :=
  match disk.locate path with
  | .error fault => (.error fault, disk)
  | .ok place =>
    if (disk.get? place).isNone then (.error (.refused .missing path), disk)
    else
      let emptied := { disk with entries := notBelow place disk.entries }
      match removalFault? path with
      | some fault => (.error fault, emptied)
      | none => (.ok (), emptied.erase place)

/-- The locations below a location, as seen from it, with what is there. -/
def below (disk : Disk) (place : Location) : List (Location × Entry) :=
  disk.entries.filterMap fun (other, entry) =>
    (place.isPrefixOf? other).bind fun names => if names = [] then none else some (names, entry)

/-- How a listing shows an entry: a file with its size, a directory with a slash. -/
def Entry.line (names : List String) : Entry → String
  | file bytes => "/".intercalate names ++ " " ++ toString bytes.length
  | directory => "/".intercalate names ++ "/"

/-- Everything below the directory that relative paths start from, in the order of the lines. -/
def listing (disk : Disk) : List String :=
  ((disk.below disk.home).map fun (names, entry) => entry.line names).mergeSort
    fun a b => decide (a ≤ b)

end DomainCodegen.Disk
