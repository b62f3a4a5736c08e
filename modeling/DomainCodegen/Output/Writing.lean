import DomainCodegen.Artifact.Draft
import DomainCodegen.Disk.Save
import DomainCodegen.Layout
import DomainCodegen.Output.Result

/-!
# Writing files

A job is one file to write. `Job.put` leaves an existing file alone unless it may be overwritten,
and backs it up first where that is asked for. A fault of one job is the result of that job, and
the jobs after it are still done.
-/

namespace DomainCodegen

namespace Disk

/-- Whether a fault comes from the file or its text, and not from how the file is to be saved. -/
def SaveFault.isOfFile : SaveFault → Bool
  | disk .nulInPath => false
  | disk _ => true
  | noTemporary => true
  | unencodable _ => true
  | noEncoding _ => false
  | nameless _ => false

/-- The word for a kind of fault in a report. -/
def Fault.label : Fault → String
  | notEncodable error => error.label
  | nulInPath => "ValueError"
  | refused reason _ => reasonLabel reason
  | moveRefused reason _ _ => reasonLabel reason
where
  reasonLabel : Reason → String
    | .missing => "FileNotFoundError"
    | .taken => "FileExistsError"
    | .notDirectory => "NotADirectoryError"
    | .isDirectory => "IsADirectoryError"
    | .busy => "OSError"
    | .invalid => "OSError"
    | .nameTooLong => "OSError"

def SaveFault.label : SaveFault → String
  | disk fault => fault.label
  | noTemporary => "FileExistsError"
  | noEncoding (.unknown _) => "LookupError"
  | noEncoding (.notOfTexts _) => "LookupError"
  | noEncoding (.notText _) => "TypeError"
  | noEncoding .nulInName => "ValueError"
  | unencodable error => error.label
  | nameless _ => "ValueError"

end Disk

namespace Output

open Disk (SaveFault SaveMode)

/-- One file to write: where, for which class, and its text unless there is none. -/
structure Job where
  path : Path
  className : Option String
  content : Except Artifact.RenderError String

/-- Why a job has no result of its own: its text cannot be made, or not be saved, because of how the
run was set up. -/
inductive JobFault where
  | render (error : Artifact.RenderError)
  | save (fault : SaveFault)
  deriving DecidableEq, Repr

variable [Surrogates]

def JobFault.message : JobFault → String
  | render error => error.message
  | save fault => fault.message

def JobFault.label : JobFault → String
  | render _ => "AttributeError"
  | save fault => fault.label

namespace Job

def shownClass (job : Job) : String := job.className.getD "None"

/-- The result of a job that failed. -/
def failure (job : Job) (message : String) : Result :=
  { path := job.path, status := .failed, message := some message, className := job.className }

def result (job : Job) (status : Status) (message : Option String) (backup : Option Path) :
    Result :=
  { path := job.path, status, message, className := job.className, backup }

def skippedMessage : String := "file already exists and overwrite is disabled"

end Job

/-- How the output options say that files are saved. -/
def saveMode (options : OutputOptions) : SaveMode :=
  { encoding := options.encoding, atomic := options.atomic }

/-- The backup of a file, if one is asked for. -/
def backUpIf (wanted : Bool) (disk : Disk) (path : Path) : Except SaveFault (Option Path) × Disk :=
  if wanted then
    match disk.backUp path with
    | (.error fault, after) => (.error fault, after)
    | (.ok backup, after) => (.ok (some backup), after)
  else (.ok none, disk)

def backupMessage (backup : Path) : String := "previous content saved to " ++ backup.name

/-- Writes a text over what is there. -/
def Job.replace (options : OutputOptions) (job : Job) (content : String) (disk : Disk) :
    Except SaveFault Result × Disk :=
  match backUpIf options.backup disk job.path with
  | (.error fault, after) => (.error fault, after)
  | (.ok backup, after) =>
    match after.save (saveMode options) job.path content with
    | (.error fault, after) => (.error fault, after)
    | (.ok (), after) => (.ok (job.result .updated (backup.map backupMessage) backup), after)

/-- Writes a text where nothing is, and over what is there if that is allowed. -/
def Job.put (options : OutputOptions) (job : Job) (content : String) (disk : Disk) :
    Except SaveFault Result × Disk :=
  match disk.holds job.path with
  | .error fault => (.error (.disk fault), disk)
  | .ok false =>
    match disk.save (saveMode options) job.path content with
    | (.error fault, after) => (.error fault, after)
    | (.ok (), after) => (.ok (job.result .created none none), after)
  | .ok true =>
    if options.overwrite then job.replace options content disk
    else (.ok (job.result .skipped (some Job.skippedMessage) none), disk)

/-- The message of a fault of the file itself. -/
def Job.faultMessage (job : Job) (fault : SaveFault) : String :=
  "Failed to write " ++ job.shownClass ++ ": " ++ job.path.text ++ ": " ++ fault.message

/-- Does a job. A fault of the artifact, the file or its text is a result, any other fault is
not. -/
def Job.write (options : OutputOptions) (job : Job) (disk : Disk) :
    Except JobFault Result × Disk :=
  match job.content with
  | .error e =>
    (if e.cause.isOfArtifact then .ok (job.failure e.message) else .error (.render e), disk)
  | .ok content =>
    match job.put options content disk with
    | (.ok result, after) => (.ok result, after)
    | (.error fault, after) =>
      (if fault.isOfFile then .ok (job.failure (job.faultMessage fault)) else .error (.save fault),
        after)

/-- Does a job whatever happens. -/
def Job.settle (options : OutputOptions) (job : Job) (disk : Disk) : Result × Disk :=
  match job.write options disk with
  | (.ok result, after) => (result, after)
  | (.error fault, after) => (job.failure (fault.label ++ ": " ++ fault.message), after)

/-- Does jobs one after the other. -/
def writeAll (options : OutputOptions) : List Job → Disk → List Result × Disk
  | [], disk => ([], disk)
  | job :: r, disk =>
    let (result, after) := job.settle options disk
    let (results, last) := writeAll options r after
    (result :: results, last)

end Output

/-- The job that writes an artifact. -/
def Artifact.job (config : Config) (root : Path) (a : Artifact) : Output.Job :=
  { path := a.path config root, className := some a.className, content := a.render config }

/-- The job that writes a draft. -/
def Artifact.Draft.job (config : Config) (root : Path) (d : Draft) : Output.Job :=
  { path := Layout.file config root d.package d.shownClass
    className := d.className
    content := d.render config }

end DomainCodegen
