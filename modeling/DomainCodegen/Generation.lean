import DomainCodegen.Artifact.Flatten
import DomainCodegen.Members
import DomainCodegen.Output.Pool
import DomainCodegen.Output.Report
import DomainCodegen.PackageName
import DomainCodegen.Schema.Reader
import DomainCodegen.Settings.Meaning

/-!
# Generation

A plan is what a schema and a package name ask for. It is made, and its artifacts are listed,
before anything is written; `Plan.generate` then writes every artifact and reports what became of
it. The jobs are done in a pool of workers. The last argument of a run says what turns they take; by
default each job is done before the next one begins.
-/

namespace DomainCodegen

/-- Why a request asks for nothing that can be generated. -/
inductive RequestError where
  | package (error : PackageName.FormatError)
  | schema (error : Schema.Error)

variable [Surrogates]

def RequestError.message : RequestError → String
  | package error => error.message
  | schema error => error.message

/-- Whether an error comes from what is asked for, and not from a limit that reading it has. -/
def RequestError.isOfRequest : RequestError → Bool
  | package _ => true
  | schema error => error.cause.isOfSchema

structure Plan where
  package : String
  tree : Schema.Tree

/-- Why a run ended without a report. -/
inductive RunFault where
  | request (error : RequestError)
  | settings (error : SettingsError)
  | search (fault : Disk.SearchFault)
  /-- A value that is no path, by its type. -/
  | notPath (type : String)
  /-- A value that holds no parameters, by its type. -/
  | notParameters (type : String)

def RunFault.message : RunFault → String
  | request error => error.message
  | settings error => error.message
  | search fault => fault.message
  | notPath type => "expected str, bytes or os.PathLike object, not " ++ type
  | notParameters type => "'" ++ type ++ "' object has no attribute 'get'"

namespace Plan

/-- The package name is checked before the schema. -/
def ofJson (schema package : Json) : Except RequestError Plan :=
  match PackageName.ofJson package with
  | .error e => .error (.package e)
  | .ok package =>
    match Schema.Tree.read schema with
    | .error e => .error (.schema e)
    | .ok tree => .ok { package, tree }

/-- The directory of the root entity below the output root. -/
def packagePath (config : Config) (plan : Plan) : Path :=
  Layout.packagePath config.anchor plan.package

def artifacts (config : Config) (plan : Plan) : Except RequestError (List Artifact) :=
  (plan.tree.artifacts config plan.package).mapError .schema

/-- Checks what is looked at before the first job: the path, and the settings of the output. -/
def outputRoot (settings : Settings) (output : Path) (disk : Disk) : Except RunFault Path :=
  match disk.resolve output with
  | .error fault => .error (.search (.disk fault))
  | .ok root =>
    match settings.checkOutput "overwrite", settings.checkWorkers with
    | .error e, _ => .error (.settings e)
    | _, .error e => .error (.settings e)
    | .ok (), .ok () => .ok root

/-- Writes jobs below an output directory and looks for their files. -/
def writeJobs (settings : Settings) (plan : Plan) (jobs : Path → List Output.Job) (output : Path)
    (disk : Disk) (turns : List Nat := []) : Except RunFault Output.Report × Disk :=
  match outputRoot settings output disk with
  | .error fault => (.error fault, disk)
  | .ok root =>
    let config := settings.config
    let (results, after) :=
      Output.writeAllBy settings.workers turns config.output (jobs root) disk
    let report : Output.Report :=
      { results, root := some root, packagePath := some (plan.packagePath config) }
    ((report.verify after config.output.extension).mapError .search, after)

def write (settings : Settings) (plan : Plan) (artifacts : List Artifact) (output : Path)
    (disk : Disk) (turns : List Nat := []) : Except RunFault Output.Report × Disk :=
  let jobs (root : Path) : List Output.Job := artifacts.map (Artifact.job settings.config root)
  plan.writeJobs settings jobs output disk turns

/-- Writes the artifacts of a plan. Nothing is written when a class would be generated twice. -/
def generate (settings : Settings) (plan : Plan) (output : Path) (disk : Disk)
    (turns : List Nat := []) : Except RunFault Output.Report × Disk :=
  match plan.artifacts settings.config with
  | .error e => (.error (.request e), disk)
  | .ok artifacts => plan.write settings artifacts output disk turns

end Plan

/-- Adds the texts of artifacts to texts by qualified name; the first artifact that has no text is
to blame. -/
def Artifact.renderOnto (config : Config) (texts : List (String × String)) :
    List Artifact → Except Artifact.RenderError (List (String × String))
  | [] => .ok texts
  | a :: r =>
    match a.render config with
    | .error e => .error e
    | .ok text => renderOnto config (Members.set a.qualifiedName text texts) r

/-- The texts of artifacts by their qualified names. -/
def Artifact.renderAll (config : Config) (artifacts : List Artifact) :
    Except Artifact.RenderError (List (String × String)) := renderOnto config [] artifacts

/-- Generates the files of a schema below an output directory. -/
def generate (settings : Settings) (schema package : Json) (output : Path) (disk : Disk)
    (turns : List Nat := []) : Except RunFault Output.Report × Disk :=
  match Plan.ofJson schema package with
  | .error e => (.error (.request e), disk)
  | .ok plan => plan.generate settings output disk turns

end DomainCodegen
