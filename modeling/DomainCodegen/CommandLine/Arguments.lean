import DomainCodegen.Disk.Basic
import DomainCodegen.Text.Integer
import DomainCodegen.Text.Similarity

/-!
# Command line arguments

Options can stand anywhere before a double dash. The value of a long option follows it, after an
equals sign or as the next argument; short options can share one dash. What is not an option is
the schema file and the package name, in this order.

The arguments are cut into options first. Their values are then read in the order in which the
options were first given, after them the schema file and the package name, and arguments that are
left over are refused last.
-/

namespace DomainCodegen.CommandLine

/-- An option that takes no value. -/
inductive Switch where
  | overwrite
  | backup
  | verbose
  | help
  deriving DecidableEq, Repr

/-- An option that takes a value. -/
inductive Parameter where
  | outputDir
  | config
  | maxWorkers
  deriving DecidableEq, Repr

abbrev Known := Parameter ⊕ Switch

def longNames : List (String × Known) :=
  [("--output-dir", .inl .outputDir), ("--config", .inl .config), ("--overwrite", .inr .overwrite),
    ("--backup", .inr .backup), ("--max-workers", .inl .maxWorkers),
    ("--verbose", .inr .verbose), ("--help", .inr .help)]

def shortNames : List (Char × Known) :=
  [('o', .inl .outputDir), ('c', .inl .config), ('v', .inr .verbose)]

/-- How a message names a parameter. -/
def Parameter.hint : Parameter → String
  | outputDir => "'--output-dir' / '-o'"
  | config => "'--config' / '-c'"
  | maxWorkers => "'--max-workers'"

def schemaName : String := "SCHEMA"

def packageName : String := "PACKAGE_NAME"

/-! ## Faults -/

/-- Why a value is refused. -/
inductive ValueCause where
  | notThere (kind value : String)
  | isFile (value : String)
  | isDirectory (value : String)
  | notInteger (value : String)
  | belowOne (n : Int)
  deriving DecidableEq, Repr

variable [Surrogates]

def ValueCause.message : ValueCause → String
  | notThere kind value => kind ++ " " ++ Text.quoted value ++ " does not exist."
  | isFile value => "Directory " ++ Text.quoted value ++ " is a file."
  | isDirectory value => "File " ++ Text.quoted value ++ " is a directory."
  | notInteger value => Text.quoted value ++ " is not a valid integer range."
  | belowOne n => toString n ++ " is not in the range x>=1."

inductive UsageFault where
  | optionUnknown (name : String) (suggestions : List String)
  | valueMissing (name : String)
  | valueNotTaken (name : String)
  | argumentMissing (name : String)
  | valueInvalid (hint : String) (cause : ValueCause)
  | argumentsLeft (arguments : List String)
  deriving DecidableEq, Repr

namespace UsageFault

def suggestionText : List String → String
  | [] => ""
  | [word] => " Did you mean " ++ word ++ "?"
  | words => " (Possible options: " ++ ", ".intercalate words ++ ")"

def message : UsageFault → String
  | optionUnknown name suggestions => "No such option: " ++ name ++ suggestionText suggestions
  | valueMissing name => "Option " ++ Text.quoted name ++ " requires an argument."
  | valueNotTaken name => "Option " ++ Text.quoted name ++ " does not take a value."
  | argumentMissing name => "Missing argument '" ++ name ++ "'."
  | valueInvalid hint cause => "Invalid value for " ++ hint ++ ": " ++ cause.message
  | argumentsLeft arguments =>
    "Got unexpected extra argument" ++ (if arguments.length = 1 then "" else "s") ++ " (" ++
      " ".intercalate arguments ++ ")"

/-- Whether the message stands without a reminder of the usage. -/
def isBare : UsageFault → Bool
  | valueMissing _ => true
  | valueNotTaken _ => true
  | _ => false

end UsageFault

/-! ## Options -/

inductive Given where
  | switch (s : Switch)
  | parameter (p : Parameter) (value : String)
  deriving DecidableEq, Repr

/-- What an argument gives, and the parameter that still waits for its value, by the name that it
was called by. -/
structure Reading where
  given : List Given := []
  waiting : Option (Parameter × String) := none

/-- Short options that share a dash. The rest of the argument is the value of the first of them
that takes one. -/
def readShort : List Char → Except UsageFault Reading
  | [] => .ok {}
  | c :: r =>
    let name := String.ofList ['-', c]
    match shortNames.lookup c with
    | none => .error (.optionUnknown name [])
    | some (.inl p) =>
      .ok (if r.isEmpty then { waiting := some (p, name) }
        else { given := [.parameter p (String.ofList r)] })
    | some (.inr s) =>
      (readShort r).map fun reading => { reading with given := .switch s :: reading.given }

/-- What follows the first equals sign. -/
def valueAfterEquals (cs : List Char) : Option String :=
  match cs.dropWhile (· ≠ '=') with
  | [] => none
  | _ :: value => some (String.ofList value)

def readOption (argument : String) : Except UsageFault Reading :=
  let cs := argument.toList
  let name := String.ofList (cs.takeWhile (· ≠ '='))
  match longNames.lookup name, valueAfterEquals cs with
  | some (.inl p), some value => .ok { given := [.parameter p value] }
  | some (.inl p), none => .ok { waiting := some (p, name) }
  | some (.inr _), some _ => .error (.valueNotTaken name)
  | some (.inr s), none => .ok { given := [.switch s] }
  | none, _ =>
    if "--".toList.isPrefixOf cs then
      .error (.optionUnknown name (Text.suggestions name (longNames.map Prod.fst)))
    else readShort (cs.drop 1)

def isOption (argument : String) : Bool :=
  match argument.toList with
  | '-' :: _ :: _ => true
  | _ => false

/-- The options that are given and the other arguments, both in order. -/
def readArguments : List String → Except UsageFault (List Given × List String)
  | [] => .ok ([], [])
  | argument :: r =>
    if argument = "--" then .ok ([], r)
    else if isOption argument then
      match readOption argument with
      | .error fault => .error fault
      | .ok ⟨given, none⟩ => (readArguments r).map fun (more, rest) => (given ++ more, rest)
      | .ok ⟨given, some (p, name)⟩ =>
        match r with
        | [] => .error (.valueMissing name)
        | value :: r =>
          (readArguments r).map fun (more, rest) => (given ++ .parameter p value :: more, rest)
    else (readArguments r).map fun (more, rest) => (more, argument :: rest)

/-! ## Values -/

/-- Why arguments make no command. -/
inductive Fault where
  | usage (fault : UsageFault)
  | disk (fault : Disk.Fault)
  deriving DecidableEq, Repr

/-- What the arguments ask for. -/
structure Command where
  outputDir : Path
  config : Option Path := none
  overwrite : Bool := false
  backup : Bool := false
  workers : Option Int := none
  schema : Path := .current
  package : String := ""

/-- A resolved path, and what is there. -/
def readPath (disk : Disk) (value : String) : Except Fault (Path × Option Disk.Entry) :=
  match disk.resolve (.ofString value) with
  | .error fault => .error (.disk fault)
  | .ok path =>
    match disk.look path with
    | .ok entry => .ok (path, entry)
    | .error _ => .ok (path, none)

def invalid (hint : String) (cause : ValueCause) : Fault := .usage (.valueInvalid hint cause)

/-- A command with a parameter set. -/
def Command.withParameter (disk : Disk) (command : Command) (p : Parameter) (value : String) :
    Except Fault Command :=
  match p with
  | .outputDir =>
    match readPath disk value with
    | .error fault => .error fault
    | .ok (_, some (.file _)) => .error (invalid p.hint (.isFile value))
    | .ok (path, _) => .ok { command with outputDir := path }
  | .config =>
    match readPath disk value with
    | .error fault => .error fault
    | .ok (_, none) => .error (invalid p.hint (.notThere "Path" value))
    | .ok (path, some _) => .ok { command with config := some path }
  | .maxWorkers =>
    match Text.integer? value with
    | none => .error (invalid p.hint (.notInteger value))
    | some n =>
      if n < 1 then .error (invalid p.hint (.belowOne n))
      else .ok { command with workers := some n }

def Command.withParameters (disk : Disk) (command : Command) :
    List (Parameter × String) → Except Fault Command
  | [] => .ok command
  | (p, value) :: r =>
    match command.withParameter disk p value with
    | .error fault => .error fault
    | .ok command => command.withParameters disk r

/-- A command with its schema file, which has to be there. -/
def Command.withSchema (disk : Disk) (command : Command) (value : String) : Except Fault Command :=
  let hint := "'" ++ schemaName ++ "'"
  match readPath disk value with
  | .error fault => .error fault
  | .ok (_, none) => .error (invalid hint (.notThere "File" value))
  | .ok (_, some .directory) => .error (invalid hint (.isDirectory value))
  | .ok (path, some (.file _)) => .ok { command with schema := path }

/-- The parameters that are given, each once with its last value, in the order of their first. -/
def parametersOf (given : List Given) : List (Parameter × String) :=
  let pairs := given.filterMap fun
    | .parameter p value => some (p, value)
    | .switch _ => none
  ((pairs.map Prod.fst).eraseDups).filterMap fun p =>
    (pairs.reverse.lookup p).map fun value => (p, value)

/-- The command that arguments make; nothing when they ask for help. -/
def Command.ofArguments (disk : Disk) (arguments : List String) : Except Fault (Option Command) :=
  match readArguments arguments with
  | .error fault => .error (.usage fault)
  | .ok (given, rest) =>
    if given.contains (.switch .help) then .ok none
    else
      let start : Command :=
        { outputDir := disk.homePath
          overwrite := given.contains (.switch .overwrite)
          backup := given.contains (.switch .backup) }
      match start.withParameters disk (parametersOf given), rest with
      | .error fault, _ => .error fault
      | .ok _, [] => .error (.usage (.argumentMissing schemaName))
      | .ok command, schema :: rest =>
        match command.withSchema disk schema, rest with
        | .error fault, _ => .error fault
        | .ok _, [] => .error (.usage (.argumentMissing packageName))
        | .ok command, [package] => .ok (some { command with package })
        | .ok _, _ :: left => .error (.usage (.argumentsLeft left))

end DomainCodegen.CommandLine
