import DomainCodegen.Disk.Search
import DomainCodegen.Output.Result

/-!
# The report of a run

A report counts the results of a run. `Report.verify` looks for every file that was reported as
written, and lists what is below the output root when one of them is not there.
-/

namespace DomainCodegen.Output

structure Mismatch where
  path : Path
  message : String
  deriving DecidableEq, Repr

/-- What a look at the disk after a run gave. -/
structure Verification where
  expected : Int := 0
  verified : Int := 0
  mismatches : List Mismatch := []
  scanned : List Path := []
  /-- Why the output root could not be searched. -/
  scanFault : Option String := none
  deriving DecidableEq, Repr

def Verification.isOk (v : Verification) : Bool := v.mismatches.isEmpty

structure Report where
  results : List Result
  root : Option Path := none
  packagePath : Option Path := none
  verification : Option Verification := none
  deriving Repr

namespace Report

/-- The results with a status, in order. -/
def byStatus (r : Report) (status : Status) : List Result :=
  r.results.filter fun result => result.status = status

def count (r : Report) (status : Status) : Nat := (r.byStatus status).length

/-- The results of files that were written, in order. -/
def written (r : Report) : List Result := r.results.filter fun result => result.status.isWritten

def hasErrors (r : Report) : Bool := 0 < r.count .failed

/-- Whether nothing failed and every written file was found. -/
def isOk (r : Report) : Bool := !r.hasErrors && r.verification.any Verification.isOk

/-! ## Verification -/

def mismatch (result : Result) : Mismatch :=
  { path := result.path
    message := result.label ++ " was reported " ++ result.status.word ++ " but does not exist" }

variable [Surrogates]

/-- The results whose files are not there. -/
def missing (disk : Disk) : List Result → Except Disk.Fault (List Result)
  | [] => .ok []
  | result :: r =>
    match disk.isFile result.path with
    | .error fault => .error fault
    | .ok true => missing disk r
    | .ok false => (missing disk r).map (result :: ·)

/-- Adds the files below the output root to a verification that found mismatches. -/
def withScan (disk : Disk) (root : Option Path) (extension : String) (v : Verification) :
    Except Disk.SearchFault Verification :=
  match root with
  | none => .ok v
  | some root =>
    if v.isOk then .ok v
    else
      match disk.scan root extension with
      | .ok found => .ok { v with scanned := found }
      | .error (.disk fault) => .ok { v with scanFault := some fault.message }
      | .error .doubleStar => .error .doubleStar

def verify (disk : Disk) (extension : String) (r : Report) : Except Disk.SearchFault Report :=
  match missing disk r.written with
  | .error fault => .error (.disk fault)
  | .ok lost =>
    let v : Verification :=
      { expected := r.written.length
        verified := r.written.length - lost.length
        mismatches := lost.map mismatch }
    (withScan disk r.root extension v).map fun v => { r with verification := some v }

/-! ## Documents -/

def pathJson (p : Path) : Json := .string p.text

def countJson (n : Int) : Json := .int n

def verificationJson (v : Verification) : Json :=
  .object
    [("expected", countJson v.expected), ("verified", countJson v.verified),
      ("missing", .array (v.mismatches.map fun m => pathJson m.path)),
      ("scanned_files", .array (v.scanned.map pathJson))]

def toJson (r : Report) : Json :=
  .object <|
    [("output_dir", r.root.elim .null pathJson),
      ("package_path", r.packagePath.elim .null pathJson),
      ("total_units", countJson r.results.length), ("created", countJson (r.count .created)),
      ("updated", countJson (r.count .updated)), ("skipped", countJson (r.count .skipped)),
      ("errors", countJson (r.count .failed)), ("results", .array (r.results.map Result.toJson))] ++
    (r.verification.map fun v => ("verification", verificationJson v)).toList

/-! ## Markdown -/

/-- A heading with its lines, unless there are none. -/
def headed (heading : String) (lines : List String) : List String :=
  if lines.isEmpty then [] else ["", heading] ++ lines

def item (name value : String) : String := "- **" ++ name ++ "**: " ++ value

def pathLines (cwd : Option Path) (r : Report) : List String :=
  (cwd.map fun p => item "Working directory" p.text).toList ++
  (r.root.map fun p => item "Output directory" p.text).toList ++
  (match r.packagePath with
    | none => []
    | some p =>
      item "Package path" p.text ::
        (r.root.map fun root => item "Generation path" (root.join p).text).toList)

def statisticsLines (r : Report) : List String :=
  ["- Total files: " ++ toString r.results.length, "- Created: " ++ toString (r.count .created),
    "- Updated: " ++ toString (r.count .updated), "- Skipped: " ++ toString (r.count .skipped),
    "- Errors: " ++ toString (r.count .failed)]

def writtenLine (result : Result) : String :=
  "- " ++ result.path.text ++ " (" ++ result.status.word ++ ")"

def skippedLine (result : Result) : String :=
  "- " ++ result.path.text ++ " (" ++ result.note.getD "file already exists" ++ ")"

def failedLine (result : Result) : String :=
  "- " ++ result.path.text ++ ": " ++ result.note.getD "unknown error"

def failedWarning (n : Nat) : List String :=
  if n = 0 then []
  else ["", "**Warning**: " ++ toString n ++ " file(s) failed, check the errors above."]

def foundLines (v : Verification) : List String :=
  match v.scanFault.filter (· ≠ "") with
  | some fault => ["Cannot scan the output directory: " ++ fault]
  | none =>
    if v.scanned.isEmpty then ["No source files found."]
    else v.scanned.map fun p => "- " ++ p.text

def verificationLines (v : Verification) : List String :=
  ["", "### Verification"] ++
  if v.isOk then ["All " ++ toString v.verified ++ " written files exist."]
  else
    ["Only " ++ toString v.verified ++ "/" ++ toString v.expected ++ " written files exist."] ++
    (v.mismatches.map fun m => "- " ++ m.path.text ++ ": " ++ m.message) ++
    ["", "#### Files found in the output directory"] ++ foundLines v

/-- The report as text; the working directory is shown if it is given. -/
def markdown (r : Report) (cwd : Option Path) : String :=
  let failed := r.byStatus .failed
  let lines :=
    ["## Java DDD code generation finished", "", "### Paths"] ++ r.pathLines cwd ++
    ["", "### Statistics"] ++ r.statisticsLines ++
    headed "#### Generated files" (r.written.map writtenLine) ++
    headed "#### Skipped files" ((r.byStatus .skipped).map skippedLine) ++
    headed "#### Failed files" (failed.map failedLine) ++ failedWarning failed.length ++
    (r.verification.map verificationLines).getD []
  "\n".intercalate lines ++ "\n"

end Report

end DomainCodegen.Output
