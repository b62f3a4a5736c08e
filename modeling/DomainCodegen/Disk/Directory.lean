import DomainCodegen.Disk.Basic

/-!
# Making directories

`makeDirectory` makes one directory in a directory that is there; `makeDirectories` makes what is
missing on the way to it first, and leaves a directory that is there alone.
-/

namespace DomainCodegen.Disk

variable [Surrogates]

def makeDirectory (disk : Disk) (path : Path) : Except Fault Disk :=
  match disk.locate path with
  | .error fault => .error fault
  | .ok place =>
    if (disk.get? place).isSome then .error (.refused .taken path)
    else .ok (disk.set place .directory)

/-- A fault that does not matter if the path is a directory. -/
def unlessDirectory (disk : Disk) (path : Path) (fault : Fault) : Except Fault Unit :=
  match disk.isDirectory path with
  | .error fault => .error fault
  | .ok true => .ok ()
  | .ok false => .error fault

/-- Makes the directories that are missing where names lead from a directory, one after the other.
The path is that of the directory; a fault is met at one that continues it. -/
def makeMissing (disk : Disk) (path : Path) (place : Location) :
    List String → Except Fault Unit × Disk
  | [] => (.ok (), disk)
  | name :: r =>
    let next := path.extend [name]
    if name = ".." then disk.makeMissing next place.dropLast r
    else if nameLimit < name.utf8ByteSize then (.error (.refused .nameTooLong next), disk)
    else
      let place := place ++ [name]
      match disk.get? place with
      | some .directory => disk.makeMissing next place r
      | some (.file _) => (.error (.refused .taken next), disk)
      | none => (disk.set place .directory).makeMissing next place r

/-- A directory with all its parents. The parents that were made stay when a later one fails. -/
def makeDirectories (disk : Disk) (path : Path) : Except Fault Unit × Disk :=
  match disk.makeDirectory path with
  | .ok made => (.ok (), made)
  | .error (.refused .missing _) =>
    disk.makeMissing { path with names := [] } (disk.startOf path) path.names
  | .error fault => (disk.unlessDirectory path fault, disk)

end DomainCodegen.Disk
