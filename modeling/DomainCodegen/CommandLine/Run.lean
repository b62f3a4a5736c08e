import DomainCodegen.CommandLine.Arguments
import DomainCodegen.Generation
import DomainCodegen.Settings.Reader
import DomainCodegen.Text.ControlSequence

/-!
# Running a command

A command reads its schema and its settings, generates the files and prints the report. What the
user can set right is told in one line; a fault that is not expected ends the command.
-/

namespace DomainCodegen.CommandLine

/-- A fault that ends a command without a message of its own. -/
inductive Escape where
  | run (fault : RunFault)
  | disk (fault : Disk.Fault)
  | notJson (error : Json.ReadError)
  | notUtf8 (error : Text.Utf8.DecodeError)

variable [Surrogates]

def Escape.message : Escape → String
  | run fault => fault.message
  | disk fault => fault.message
  | notJson error => error.message
  | notUtf8 error => error.message

/-- What a command leaves behind. -/
structure Outcome where
  exitCode : Nat
  stdout : String := ""
  stderr : String := ""
  escape : Option Escape := none
  disk : Disk

/-! ## Input files -/

/-- A text in which every carriage return, with the line feed after it if there is one, is a line
feed. -/
def lineFeeds : List Char → List Char
  | [] => []
  | '\r' :: '\n' :: r => '\n' :: lineFeeds r
  | c :: r => (if c = '\r' then '\n' else c) :: lineFeeds r

example : lineFeeds "a\r\nb\rc\n".toList = "a\nb\nc\n".toList := by decide

def readText (disk : Disk) (path : Path) : Except Escape String :=
  match disk.fileAt path with
  | .error fault => .error (.disk fault)
  | .ok bytes =>
    match Text.Utf8.decode bytes with
    | .error error => .error (.notUtf8 error)
    | .ok cs => .ok (String.ofList (lineFeeds cs))

/-- The settings of a file, or the defaults without one. -/
def readSettings (codecs : Text.Codecs) (disk : Disk) : Option Path → Except Escape Settings
  | none => .ok { codecs }
  | some path =>
    match readText disk path with
    | .error escape => .error escape
    | .ok text =>
      match Json.read text with
      | .error error => .error (.notJson error)
      | .ok doc => (Settings.ofJson codecs doc).mapError fun error => .run (.settings error)

/-- Turns one of the output options on. -/
def turnOn (member : String) (wanted : Bool) (settings : Settings) : Except Escape Settings :=
  if !wanted then .ok settings
  else
    match settings.checkOutput member with
    | .error error => .error (.run (.settings error))
    | .ok () => .ok ((settings.setOption? member (.bool true)).getD settings)

/-- The settings of a command; its options come before those of the file. -/
def Command.settings (codecs : Text.Codecs) (command : Command) (disk : Disk) :
    Except Escape Settings :=
  match readSettings codecs disk command.config with
  | .error escape => .error escape
  | .ok settings =>
    match turnOn "overwrite" command.overwrite settings with
    | .error escape => .error escape
    | .ok settings =>
      (turnOn "backup" command.backup settings).map fun settings =>
        match command.workers with
        | none => settings
        | some n => settings.set Settings.workersKey (.int n)

/-! ## Outcomes -/

def usageLine : String := "Usage: java_ddd_codegen [OPTIONS] SCHEMA PACKAGE_NAME\n"

def hintLine : String := "Try 'java_ddd_codegen --help' for help.\n"

def helpText : String :=
  usageLine ++ "\nOptions:\n  -o, --output-dir DIRECTORY\n  -c, --config PATH\n" ++
    "  --overwrite           Replace files that already exist\n" ++
    "  --backup              Copy existing files to .bak before replacing them\n" ++
    "  --max-workers NUMBER  Threads used to write files\n  -v, --verbose\n" ++
    "  --help                Show this message and exit.\n"

def errorLine (message : String) : String := "Error: " ++ message ++ "\n"

def usageText (fault : UsageFault) : String :=
  (if fault.isBare then "" else usageLine ++ hintLine ++ "\n") ++ errorLine fault.message

def escaped (disk : Disk) (escape : Escape) : Outcome :=
  { exitCode := 1, escape := some escape, disk }

def ofRun : Except RunFault Output.Report × Disk → Outcome
  | (.error (.request error), disk) =>
    if error.isOfRequest then { exitCode := 1, stderr := errorLine error.message, disk }
    else escaped disk (.run (.request error))
  | (.error fault, disk) => escaped disk (.run fault)
  | (.ok report, disk) =>
    { exitCode := if report.isOk then 0 else 1, stdout := report.markdown none ++ "\n", disk }

def Command.run (codecs : Text.Codecs) (command : Command) (disk : Disk) : Outcome :=
  match readText disk command.schema with
  | .error escape => escaped disk escape
  | .ok schema =>
    match command.settings codecs disk with
    | .error escape => escaped disk escape
    | .ok settings =>
      ofRun (generate settings (.string schema) (.string command.package) command.outputDir disk)

/-- An outcome with plain text alone, whatever names are shown in it. -/
def Outcome.plain (outcome : Outcome) : Outcome :=
  { outcome with stdout := Text.plain outcome.stdout, stderr := Text.plain outcome.stderr }

/-- What arguments ask for, done on a disk. -/
def perform (codecs : Text.Codecs) (arguments : List String) (disk : Disk) : Outcome :=
  match Command.ofArguments disk arguments with
  | .error (.usage fault) => { exitCode := 2, stderr := usageText fault, disk }
  | .error (.disk fault) => escaped disk (.disk fault)
  | .ok none => { exitCode := 0, stdout := helpText, disk }
  | .ok (some command) => command.run codecs disk

/-- Runs the program with arguments on a disk, with the codecs of the machine. -/
def run (codecs : Text.Codecs) (arguments : List String) (disk : Disk) : Outcome :=
  (perform codecs arguments disk).plain

end DomainCodegen.CommandLine
