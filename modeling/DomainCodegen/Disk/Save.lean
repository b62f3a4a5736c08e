import DomainCodegen.Disk.File
import DomainCodegen.Text.Encoding

/-!
# Saving a text

`saveThrough` writes a text to a new file beside the target and moves that file into place, so the
target has its old content or the whole new one. `saveInPlace` opens the target first, so it is
left empty when the text cannot be encoded. `backUp` copies a file to the first free backup name.
-/

namespace DomainCodegen.Disk

open Text (Codec EncodingFault EncodeError)

/-- Why a text was not saved, or a file not backed up. -/
inductive SaveFault where
  | disk (fault : Fault)
  | noTemporary
  | noEncoding (fault : EncodingFault)
  | unencodable (error : EncodeError)
  | nameless (path : Path)
  deriving DecidableEq, Repr

variable [Surrogates]

def SaveFault.message : SaveFault → String
  | disk fault => fault.message
  | noTemporary => "[Errno 17] No usable temporary file name found"
  | noEncoding fault => fault.message
  | unencodable error => error.message
  | nameless path => "PosixPath(" ++ Text.quoted path.text ++ ") has an empty name"

/-- How a text is to be saved. -/
structure SaveMode where
  encoding : Except EncodingFault Codec := .ok .utf8
  atomic : Bool := true

/-- The bytes that a file gets that a text is written to. -/
def SaveMode.encode (mode : SaveMode) (content : String) : Except SaveFault (List UInt8) :=
  match mode.encoding with
  | .error fault => .error (.noEncoding fault)
  | .ok codec => (codec.write (Text.codePoints content)).mapError .unencodable

/-! ## Free names -/

/-- The first of numbered paths, from an index on, at which nothing is, by its number; `fuel` of
them are tried. -/
def firstFreeFrom (disk : Disk) (candidate : Nat → Path) (index : Nat) : Nat → Except Fault Nat
  | 0 => .ok index
  | fuel + 1 =>
    match disk.holds (candidate index) with
    | .error fault => .error fault
    | .ok false => .ok index
    | .ok true => disk.firstFreeFrom candidate (index + 1) fuel

/-- The first of numbered paths at which nothing is, by its number. There is one among the first
`n + 1` of them when the disk has `n` entries. -/
def firstFree (disk : Disk) (candidate : Nat → Path) : Except Fault Nat :=
  disk.firstFreeFrom candidate 0 (disk.entries.length + 1)

/-- A number with at least eight digits. -/
def padded (n : Nat) : String :=
  let digits := toString n
  String.ofList (List.replicate (8 - digits.length) '0') ++ digits

/-- The neighbours of a file that its text is written to first. -/
def temporaryPath (home path : Path) (index : Nat) : Path :=
  (Path.normal home path.parent).join
    { names := ["." ++ path.name ++ "." ++ padded index ++ ".tmp"] }

/-- The temporary names of a file are all of one length, so there are so many of them. -/
def temporaryLimit : Nat := 100000000

/-- The first neighbour of a file at which nothing is. -/
def freeTemporary (disk : Disk) (path : Path) : Except SaveFault Path :=
  match disk.firstFree (temporaryPath disk.homePath path) with
  | .error fault => .error (.disk fault)
  | .ok index =>
    if index < temporaryLimit then .ok (temporaryPath disk.homePath path index)
    else .error .noTemporary

/-- The names that a file is backed up to. -/
def backupPath (path : Path) (index : Nat) : Path :=
  path.withName (path.name ++ ".bak" ++ if index = 0 then "" else "." ++ toString index)

/-! ## Saving -/

/-- Writes a text to a temporary file and moves it into place. The temporary file is removed when
anything fails. -/
def saveThrough (disk : Disk) (mode : SaveMode) (path : Path) (content : String) :
    Except SaveFault Unit × Disk :=
  match disk.freeTemporary path with
  | .error fault => (.error fault, disk)
  | .ok temporary =>
    match disk.createFile temporary with
    | .error fault => (.error (.disk fault), disk)
    | .ok created =>
      match mode.encode content with
      | .error fault => (.error fault, created.removeFile temporary)
      | .ok bytes =>
        match created.writeFile temporary bytes with
        | .error fault => (.error (.disk fault), created.removeFile temporary)
        | .ok written =>
          match written.moveFile temporary path with
          | .error fault => (.error (.disk fault), written.removeFile temporary)
          | .ok moved => (.ok (), moved)

/-- Whether an encoding is refused before a file is opened with it. -/
def SaveMode.isRefusedAtOnce (mode : SaveMode) : Bool :=
  match mode.encoding with
  | .error (.notText _) => true
  | .error .nulInName => true
  | _ => false

/-- Opens the target, which empties it, and then writes the text. -/
def saveInPlace (disk : Disk) (mode : SaveMode) (path : Path) (content : String) :
    Except SaveFault Unit × Disk :=
  if mode.isRefusedAtOnce then ((mode.encode content).map fun _ => (), disk)
  else
    match disk.writeFile path [] with
    | .error fault => (.error (.disk fault), disk)
    | .ok opened =>
      match mode.encode content with
      | .error fault => (.error fault, opened)
      | .ok bytes =>
        match opened.writeFile path bytes with
        | .error fault => (.error (.disk fault), opened)
        | .ok written => (.ok (), written)

/-- Saves a text and makes the directories that it needs. -/
def save (disk : Disk) (mode : SaveMode) (path : Path) (content : String) :
    Except SaveFault Unit × Disk :=
  match disk.makeDirectories path.parent with
  | (.error fault, made) => (.error (.disk fault), made)
  | (.ok (), made) =>
    if mode.atomic then made.saveThrough mode path content else made.saveInPlace mode path content

/-- Copies a file to the first of its backup names at which nothing is. -/
def backUp (disk : Disk) (path : Path) : Except SaveFault Path × Disk :=
  if path.name = "" then (.error (.nameless path), disk)
  else
    match disk.firstFree (backupPath path) with
    | .error fault => (.error (.disk fault), disk)
    | .ok index =>
      match disk.fileAt path with
      | .error fault => (.error (.disk fault), disk)
      | .ok bytes =>
        match disk.writeFile (backupPath path index) bytes with
        | .error fault => (.error (.disk fault), disk)
        | .ok copied => (.ok (backupPath path index), copied)

end DomainCodegen.Disk
