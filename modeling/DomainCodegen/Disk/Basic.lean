import DomainCodegen.Path
import DomainCodegen.Text.Encoding

/-!
# Disks

A disk holds files and directories at locations. A location is the list of names that lead to it
from the top directory, which is always there; `Disk.get?` is the view through which the other
operations are described.

`Disk.locate` follows a path to its location. It fails where the system would: at a name that is
missing or is no directory while names remain, and at a name or a path that is too long. A path
that has no bytes or holds a NUL (`unfit?`) leads nowhere.
-/

namespace DomainCodegen

abbrev Location := List String

inductive Disk.Entry where
  | file (bytes : List UInt8)
  | directory
  deriving DecidableEq, Inhabited, Repr

structure Disk where
  /-- The directory that relative paths start from. -/
  home : Location := []
  entries : List (Location × Disk.Entry) := []

namespace Disk

/-! ## Faults -/

inductive Reason where
  | missing
  | busy
  | taken
  | notDirectory
  | isDirectory
  | invalid
  | nameTooLong
  deriving DecidableEq, Inhabited, Repr

def Reason.number : Reason → Nat
  | missing => 2
  | busy => 16
  | taken => 17
  | notDirectory => 20
  | isDirectory => 21
  | invalid => 22
  | nameTooLong => 36

def Reason.text : Reason → String
  | missing => "No such file or directory"
  | busy => "Device or resource busy"
  | taken => "File exists"
  | notDirectory => "Not a directory"
  | isDirectory => "Is a directory"
  | invalid => "Invalid argument"
  | nameTooLong => "File name too long"

/-- Why an operation on a disk failed, and at which path. -/
inductive Fault where
  | refused (reason : Reason) (path : Path)
  | moveRefused (reason : Reason) (source target : Path)
  /-- There are no bytes for a path. -/
  | notEncodable (error : Text.EncodeError)
  | nulInPath
  deriving DecidableEq, Repr

def Fault.message [Surrogates] : Fault → String
  | refused reason path =>
    "[Errno " ++ toString reason.number ++ "] " ++ reason.text ++ ": " ++ Text.quoted path.text
  | moveRefused reason source target =>
    "[Errno " ++ toString reason.number ++ "] " ++ reason.text ++ ": " ++ Text.quoted source.text ++
      " -> " ++ Text.quoted target.text
  | notEncodable error => error.message
  | nulInPath => "embedded null byte"

/-- Whether a fault says no more than that nothing is there. -/
def Fault.isAbsence : Fault → Bool
  | refused .missing _ => true
  | refused .notDirectory _ => true
  | notEncodable _ => true
  | nulInPath => true
  | _ => false

/-! ## Entries -/

def get? (disk : Disk) (place : Location) : Option Entry :=
  if place = [] then some .directory else disk.entries.lookup place

def without (place : Location) (entries : List (Location × Entry)) : List (Location × Entry) :=
  entries.filter fun e => e.1 ≠ place

/-- The disk with an entry at a location. -/
def set (disk : Disk) (place : Location) (entry : Entry) : Disk :=
  { disk with entries := (place, entry) :: without place disk.entries }

/-- The disk without the entry at a location. -/
def erase (disk : Disk) (place : Location) : Disk :=
  { disk with entries := without place disk.entries }

theorem lookup_without {place other : Location} (entries : List (Location × Entry)) :
    (without place entries).lookup other =
      if other = place then none else entries.lookup other := by
  induction entries with
  | nil => simp [without]
  | cons e r ih =>
    obtain ⟨first, entry⟩ := e
    by_cases h : first = place
    · have : without place ((first, entry) :: r) = without place r := by simp [without, h]
      rw [this, ih, List.lookup_cons]
      by_cases ho : other = place
      · simp [ho]
      · simp [h, ho, beq_eq_false_iff_ne.2 ho]
    · have : without place ((first, entry) :: r) = (first, entry) :: without place r := by
        simp [without, h]
      rw [this, List.lookup_cons, List.lookup_cons, ih]
      by_cases ho : other = first
      · subst ho
        simp [h]
      · simp [beq_eq_false_iff_ne.2 ho]

theorem get?_set {disk : Disk} {place other : Location} {entry : Entry} (h : place ≠ []) :
    (disk.set place entry).get? other = if other = place then some entry else disk.get? other := by
  unfold get? set
  rw [List.lookup_cons, lookup_without]
  by_cases ho : other = place
  · simp [ho, h]
  · simp [ho, beq_eq_false_iff_ne.2 ho]

theorem get?_erase {disk : Disk} {place other : Location} (h : place ≠ []) :
    (disk.erase place).get? other = if other = place then none else disk.get? other := by
  unfold get? erase
  rw [lookup_without]
  by_cases ho : other = place
  · simp [ho, h]
  · simp [ho]

/-! ## Following a path -/

def nameLimit : Nat := 255

def pathLimit : Nat := 4095

/-- The entries below a name, as seen from it. -/
def within (name : String) (entries : List (Location × Entry)) : List (Location × Entry) :=
  entries.filterMap fun
    | (first :: r, entry) => if first = name then some (r, entry) else none
    | ([], _) => none

/-- The entries at and below a location, as seen from it. -/
def entriesAt (disk : Disk) (place : Location) : List (Location × Entry) :=
  place.foldl (fun entries name => within name entries) disk.entries

/-- Follows names from a location, with the entries as seen from it. -/
def walkFrom (disk : Disk) (entries : List (Location × Entry)) (place : Location) :
    List String → Except Reason Location
  | [] => .ok place
  | name :: r =>
    match if place = [] then some .directory else entries.lookup [] with
    | none => .error .missing
    | some (.file _) => .error .notDirectory
    | some .directory =>
      if name = ".." then disk.walkFrom (disk.entriesAt place.dropLast) place.dropLast r
      else if nameLimit < name.utf8ByteSize then .error .nameTooLong
      else disk.walkFrom (within name entries) (place ++ [name]) r

/-- Follows names from a location. The location that is reached need not hold anything. -/
def walk (disk : Disk) (place : Location) (names : List String) : Except Reason Location :=
  disk.walkFrom (disk.entriesAt place) place names

theorem lookup_within (name : String) (entries : List (Location × Entry)) (names : Location) :
    (within name entries).lookup names = entries.lookup (name :: names) := by
  induction entries with
  | nil => rfl
  | cons e r ih =>
    obtain ⟨place, entry⟩ := e
    have hc : within name ((place, entry) :: r) =
        (match place with
          | first :: rest => if first = name then (rest, entry) :: within name r else within name r
          | [] => within name r) := by
      cases place with
      | nil => rfl
      | cons first rest => by_cases h : first = name <;> simp [within, h]
    rw [hc, List.lookup_cons]
    cases place with
    | nil => simpa using ih
    | cons first rest =>
      by_cases h : first = name
      · subst h
        by_cases hn : names = rest
        · simp [hn]
        · simp [ih, List.lookup_cons, beq_eq_false_iff_ne.2 hn]
      · have hne : (name :: names == first :: rest) = false := by
          simp [Ne.symm h]
        simp [h, ih, hne]

theorem lookup_entriesAt (disk : Disk) (place names : Location) :
    (disk.entriesAt place).lookup names = disk.entries.lookup (place ++ names) := by
  unfold entriesAt
  generalize disk.entries = entries
  induction place generalizing entries with
  | nil => rfl
  | cons name r ih => rw [List.foldl_cons, ih, lookup_within, List.cons_append]

theorem walk_nil (disk : Disk) (place : Location) : disk.walk place [] = .ok place := rfl

theorem walk_cons (disk : Disk) (place : Location) (name : String) (names : List String) :
    disk.walk place (name :: names) =
      match disk.get? place with
      | none => .error .missing
      | some (.file _) => .error .notDirectory
      | some .directory =>
        if name = ".." then disk.walk place.dropLast names
        else if nameLimit < name.utf8ByteSize then .error .nameTooLong
        else disk.walk (place ++ [name]) names := by
  have hl : (disk.entriesAt place).lookup [] = disk.entries.lookup place := by
    rw [lookup_entriesAt, List.append_nil]
  have hw : within name (disk.entriesAt place) = disk.entriesAt (place ++ [name]) := by
    simp [entriesAt]
  rw [walk, walkFrom, hl, hw]
  rfl

/-- Where the names of a path start. -/
def startOf (disk : Disk) (path : Path) : Location := if path.isAbsolute then [] else disk.home

variable [Surrogates]

/-- Why a path is refused before anything is looked up: it cannot be written down, or a NUL would
end it. -/
def unfit? (path : Path) : Option Fault :=
  match Text.encodeUtf8 (Text.codePoints path.text) with
  | .error error => some (.notEncodable error)
  | .ok _ => if path.hasNul then some .nulInPath else none

/-- The location of a path. -/
def locate (disk : Disk) (path : Path) : Except Fault Location :=
  match unfit? path with
  | some fault => .error fault
  | none =>
    if pathLimit < path.text.utf8ByteSize then .error (.refused .nameTooLong path)
    else (disk.walk (disk.startOf path) path.names).mapError fun reason => .refused reason path

/-- What stands at a path. That nothing is there is no fault, but a path too long is one. -/
def look (disk : Disk) (path : Path) : Except Fault (Option Entry) :=
  match disk.locate path with
  | .ok place => .ok (disk.get? place)
  | .error fault => if fault.isAbsence then .ok none else .error fault

def holds (disk : Disk) (path : Path) : Except Fault Bool := (disk.look path).map Option.isSome

def isDirectory (disk : Disk) (path : Path) : Except Fault Bool :=
  (disk.look path).map fun entry => entry = some .directory

def isFile (disk : Disk) (path : Path) : Except Fault Bool :=
  (disk.look path).map fun entry => entry.any fun e => e ≠ .directory

/-- The path of the directory that relative paths start from. -/
def homePath (disk : Disk) : Path := { start := .slash, names := disk.home }

/-- Where `..` leads from names that were followed, the last one first. -/
def climb (start : Path.Start) : List String → List String
  | [] => if start = .here then [".."] else []
  | name :: r => if name = ".." then ".." :: name :: r else r

/-- Why one of the paths is refused that names lead to, each of which is looked up in turn; `back`
holds the names so far, the last one first. -/
def unfitOnWay? (start : Path.Start) (back : List String) : List String → Option Fault
  | [] => none
  | name :: r =>
    if name = ".." then unfitOnWay? start (climb start back) r
    else
      match unfit? { start, names := (name :: back).reverse } with
      | some fault => some fault
      | none => unfitOnWay? start (name :: back) r

/-- The absolute path without `..` that a path stands for, whatever is on the disk. -/
def resolve (disk : Disk) (path : Path) : Except Fault Path :=
  match unfitOnWay? (if path.isAbsolute then .slash else .here) [] path.names with
  | some fault => .error fault
  | none => .ok { start := .slash, names := (Path.normal disk.homePath path).names }

end Disk

end DomainCodegen
