import DomainCodegen.Config
import DomainCodegen.Json.Display
import DomainCodegen.Settings.Error

/-!
# Settings

Settings hold what a settings document gave, as it was given, so that it can be shown again. A
setting that was not given has its default.
-/

namespace DomainCodegen

/-- What settings hold for the output: its options, some other value, or nothing. -/
inductive OutputSetting where
  | options (members : List (String × Json))
  | value (value : Json)
  | absent

/-- All output options, in the order in which they are shown. -/
def OutputSetting.defaults : List (String × Json) :=
  let options : OutputOptions := {}
  [("overwrite", .bool options.overwrite), ("backup", .bool options.backup),
    ("atomic_write", .bool options.atomic), ("file_extension", .string options.extension),
    ("encoding", .string "utf-8")]

structure Settings where
  /-- The values that were given. -/
  values : List (String × Json) := []
  output : OutputSetting := .options OutputSetting.defaults
  /-- The codecs that the names of encodings stand for. -/
  codecs : Text.Codecs := Text.standardCodecs

namespace Settings

def outputKey : String := "output"

def workersKey : String := "max_workers"

/-- A member that replaces all values at once. -/
def valuesKey : String := "__dict__"

/-- A member that stands for the list of settings. -/
def membersKey : String := "__dataclass_fields__"

/-- A member that stands for the way in which settings are shown. -/
def showKey : String := "to_dict"

/-- All settings but the output options, in the order in which they are shown. -/
def defaultValues : List (String × Json) :=
  let config : Config := {}
  [("domain_anchor", .string config.anchor),
    ("value_object_package", .string config.valuePackage),
    ("aggregate_root_class_suffix", .string config.rootSuffix),
    ("simple_entity_class_suffix", .string config.entitySuffix),
    ("id_class_suffix", .string config.idSuffix),
    ("sn_class_suffix", .string config.serialSuffix),
    ("aggregate_root_base_class", .string config.rootBase.text),
    ("entity_base_class", .string config.entityBase.text),
    ("value_object_interface", .string config.valueInterface.text),
    ("serial_number_generator_class", .string config.serialGenerator.text),
    ("serial_number_expression", .string config.serialExpression),
    ("empty_check_class", .string config.emptyCheckClass.text),
    ("empty_check_method", .string config.emptyCheckMethod),
    ("exception_class", .string config.exceptionClass.text),
    ("result_code_class", .string config.resultCodeClass.text),
    ("result_code_constant", .string config.resultCodeConstant),
    ("add_generation_comment", .bool config.banner),
    (workersKey, .null)]

def defaults : Settings := {}

def get (s : Settings) (name : String) : Json :=
  ((s.values.lookup name).or (defaultValues.lookup name)).getD .null

def set (s : Settings) (name : String) (value : Json) : Settings :=
  { s with values := Members.set name value s.values }

/-- The settings with one of the output options set, if they have any. -/
def setOption? (name : String) (value : Json) (s : Settings) : Option Settings :=
  match s.output with
  | .options members => some { s with output := .options (Members.set name value members) }
  | _ => none

/-- The values of all settings but the output options. -/
def allValues (s : Settings) : List (String × Json) :=
  defaultValues.map fun (name, _) => (name, s.get name)

/-- Whether there are settings at all: a list of them that was given may only be empty. -/
def hasMembers (s : Settings) : Except SettingsError Bool :=
  match s.values.lookup membersKey with
  | none => .ok true
  | some (.object []) => .ok false
  | some (.object ((_, first) :: _)) => .error (.lacks first.typeName "_field_type")
  | some value => .error (.lacks value.typeName "values")

/-- What settings lack when there is nothing for the output. -/
def outputMissing : SettingsError := .lacks SettingsError.settingsName outputKey

/-- Settings with all their values, as a document. -/
def toJson (s : Settings) : Except SettingsError Json :=
  match s.values.lookup showKey, s.hasMembers with
  | some value, _ => .error (.notCallable value.typeName)
  | none, .error e => .error e
  | none, .ok false => .ok (.object [])
  | none, .ok true =>
    let shown (output : Json) : Json := .object (s.allValues ++ [(outputKey, output)])
    match s.output with
    | .options members => .ok (shown (.object members))
    | .value value => .ok (shown value)
    | .absent => .error outputMissing

end Settings

end DomainCodegen
