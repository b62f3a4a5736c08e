import DomainCodegen.Generation

/-!
# Requests

A request asks for one generation with parameters whose types are not known. A request that makes
sense becomes a proposal, which is shown for approval before anything is written; a request that
makes none is answered at once.
-/

namespace DomainCodegen

structure Request where
  params : Json
  /-- The directory that the request was made in. -/
  cwd : Path
  settings : Settings

/-- Why a request makes no sense. -/
inductive Rejection where
  | parameterMissing (name : String)
  | flagUnreadable (name : String) (given : Json)
  | invalid (error : RequestError)

variable [Surrogates]

def Rejection.message : Rejection → String
  | parameterMissing name => "Missing required parameter: " ++ name
  | flagUnreadable name given =>
    "parameter '" ++ name ++ "' must be a boolean, got " ++ given.display
  | invalid error => "Invalid request: " ++ error.message

/-- The answer to a request. -/
structure Reply where
  ok : Bool
  message : String
  report : Option Output.Report := none
  outputDir : Option Path := none
  packagePath : Option Path := none

namespace Reply

/-- The directory in which the root entity is expected. -/
def expectedDir (r : Reply) : Option Path :=
  match r.outputDir, r.packagePath with
  | some dir, some path => some (dir.join path)
  | _, _ => none

def toJson (r : Reply) : Json :=
  .object <|
    [("ok", .bool r.ok), ("message", .string r.message)] ++
    (r.report.map fun report => ("report", report.toJson)).toList

end Reply

/-- A run that only waits for approval. -/
structure Proposal where
  settings : Settings
  plan : Plan
  artifacts : List Artifact
  outputDir : Path
  cwd : Path

namespace Request

def param (r : Request) (name : String) : Json := (r.params.get? name).getD .null

def requiredParams : List String := ["json_schema", "package_name"]

/-- The required parameter that is missing; an empty value is none. -/
def missing? (r : Request) : Option String :=
  requiredParams.find? fun name => !(r.param name).isTrue

/-! ## Flags -/

def trueWords : List String := ["true", "1", "yes", "on"]

def falseWords : List String := ["false", "0", "no", "off", ""]

/-- The truth that a word stands for; blanks at the ends and letter case are not looked at. -/
def flagOfWord? (s : String) : Option Bool :=
  let word := String.ofList (Text.smalls (Text.strip s.toList))
  if trueWords.contains word then some true
  else if falseWords.contains word then some false
  else none

def flag (r : Request) (name : String) : Except Rejection Bool :=
  match r.param name with
  | .null => .ok false
  | .bool b => .ok b
  | .string s => (flagOfWord? s).elim (.error (.flagUnreadable name (.string s))) .ok
  | given => .error (.flagUnreadable name given)

/-- The settings of a request with its two flags. -/
def settingsWith (r : Request) (overwrite backup : Bool) : Except SettingsError Settings :=
  match r.settings.output with
  | .options members =>
    r.settings.replaceOptions <|
      Members.set "backup" (.bool backup) (Members.set "overwrite" (.bool overwrite) members)
  | .value _ => .error .outputNotReplaceable
  | .absent => .error Settings.outputMissing

/-! ## The output directory -/

/-- A relative output directory is seen from the working directory and resolved; an absolute one
stands as it is. Without one, files go to the working directory. -/
def outputDir (r : Request) (disk : Disk) : Except RunFault Path :=
  match disk.resolve r.cwd with
  | .error fault => .error (.search (.disk fault))
  | .ok home =>
    let given := r.param "output_dir"
    if !given.isTrue then .ok home
    else match given with
      | .string s =>
        let path := Path.ofString s
        if path.isAbsolute then .ok path
        else (disk.resolve (home.join path)).mapError fun fault => .search (.disk fault)
      | value => .error (.notPath value.typeName)

/-! ## From a request to its answer -/

/-- What a request with the required parameters proposes. The flags are checked first, then the
settings and the output directory, and the package and the schema last. -/
def proposeComplete (r : Request) (disk : Disk) : Except RunFault (Except Rejection Proposal) :=
  match r.flag "overwrite", r.flag "backup" with
  | .error rejection, _ => .ok (.error rejection)
  | _, .error rejection => .ok (.error rejection)
  | .ok overwrite, .ok backup =>
    match r.settingsWith overwrite backup with
    | .error e => .error (.settings e)
    | .ok settings =>
      match r.outputDir disk with
      | .error fault => .error fault
      | .ok outputDir =>
        match Plan.ofJson (r.param "json_schema") (r.param "package_name") with
        | .error e => if e.isOfRequest then .ok (.error (.invalid e)) else .error (.request e)
        | .ok plan =>
          .ok <| match plan.artifacts settings.config with
            | .error e => .error (.invalid e)
            | .ok artifacts => .ok { settings, plan, artifacts, outputDir, cwd := r.cwd }

/-- What a request proposes. -/
def propose (r : Request) (disk : Disk) : Except RunFault (Except Rejection Proposal) :=
  match r.params, r.missing? with
  | .object _, some name => .ok (.error (.parameterMissing name))
  | .object _, none => r.proposeComplete disk
  | value, _ => .error (.notParameters value.typeName)

end Request

namespace Proposal

def yesNo (b : Bool) : String := if b then "yes" else "no"

/-- What is shown for approval. -/
def summary (p : Proposal) : String :=
  let options := p.settings.config.output
  "\n".intercalate
    ["Generate Java DDD code:", "- Entity: " ++ p.plan.tree.info.name,
      "- Kind: " ++ p.plan.tree.node.kind.word, "- Package: " ++ p.plan.package,
      "- Output directory: " ++ p.outputDir.text, "- Files: " ++ toString p.artifacts.length,
      "- Overwrite existing files: " ++ yesNo options.overwrite,
      "- Back up existing files: " ++ yesNo options.backup]

def packagePath (p : Proposal) : Path := p.plan.packagePath p.settings.config

def declined (p : Proposal) : Reply :=
  { ok := false, message := "Generation was not approved", outputDir := some p.outputDir
    packagePath := some p.packagePath }

def carryOut (p : Proposal) (disk : Disk) (turns : List Nat := []) :
    Except RunFault Reply × Disk :=
  match p.plan.write p.settings p.artifacts p.outputDir disk turns with
  | (.error fault, after) => (.error fault, after)
  | (.ok report, after) =>
    (.ok
      { ok := report.isOk, message := report.markdown (some p.cwd), report := some report
        outputDir := some p.outputDir, packagePath := some p.packagePath }, after)

end Proposal

namespace Request

/-- The answer to a request, what was shown for approval, and the disk afterwards. -/
structure Outcome where
  reply : Except RunFault Reply
  asked : List String
  disk : Disk

/-- Answers a request. Without `approve` nothing is shown and every proposal is carried out. -/
def run (r : Request) (approve : Option (String → Bool)) (disk : Disk) (turns : List Nat := []) :
    Outcome :=
  match r.propose disk with
  | .error fault => ⟨.error fault, [], disk⟩
  | .ok (.error rejection) => ⟨.ok { ok := false, message := rejection.message }, [], disk⟩
  | .ok (.ok proposal) =>
    match approve with
    | none => let (reply, after) := proposal.carryOut disk turns; ⟨reply, [], after⟩
    | some approve =>
      if approve proposal.summary then
        let (reply, after) := proposal.carryOut disk turns
        ⟨reply, [proposal.summary], after⟩
      else ⟨.ok proposal.declined, [proposal.summary], disk⟩

end Request

end DomainCodegen
