import DomainCodegen.Json.Value
import DomainCodegen.Path

/-!
# The result of one file

What became of a file that was to be generated, and how that is written down.
-/

namespace DomainCodegen.Output

inductive Status where
  | created
  | updated
  | skipped
  | failed
  deriving DecidableEq, Inhabited, Repr

namespace Status

def all : List Status := [created, updated, skipped, failed]

def word : Status → String
  | created => "created"
  | updated => "updated"
  | skipped => "skipped"
  | failed => "error"

def ofWord? (s : String) : Option Status := all.find? fun status => status.word = s

/-- Whether the file holds its new content. -/
def isWritten : Status → Bool
  | created => true
  | updated => true
  | _ => false

end Status

structure Result where
  path : Path
  status : Status
  message : Option String := none
  /-- The class of the file; a draft can lack one. -/
  className : Option String := some ""
  backup : Option Path := none
  deriving DecidableEq, Inhabited, Repr

namespace Result

/-- The message, unless it says nothing. -/
def note (r : Result) : Option String := r.message.filter (· ≠ "")

def toJson (r : Result) : Json :=
  .object <|
    [("path", .string r.path.text), ("status", .string r.status.word),
      ("class_name", r.className.elim .null .string)] ++
    (r.note.map fun s => ("message", .string s)).toList ++
    (r.backup.map fun p => ("backup_path", .string p.text)).toList

/-- How a message names the file: by its class if there is one. -/
def label (r : Result) : String := (r.className.filter (· ≠ "")).getD r.path.name

end Result

end DomainCodegen.Output
