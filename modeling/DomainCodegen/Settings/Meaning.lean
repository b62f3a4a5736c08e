import DomainCodegen.Settings.Basic

/-!
# What settings mean

`Settings.config` is the configuration that settings stand for. Where a text is wanted any value
stands for its text, and where a switch is wanted for its truth; only a class has to be named by a
text. The other definitions are the checks that a run makes of settings before it starts.
-/

namespace DomainCodegen

/-- A setting that names a class. -/
def ClassSetting.ofJson : Json → ClassSetting
  | .string name => named name
  | .array items => container (Json.array items).typeName
  | .object members => container (Json.object members).typeName
  | value => scalar value.typeName

namespace Settings

variable [Surrogates]

def textOf (s : Settings) (name : String) : String := (s.get name).plain

def classOf (s : Settings) (name : String) : ClassSetting := .ofJson (s.get name)

/-- Without a name, files are written in UTF-8. -/
def encodingOf (codecs : Text.Codecs) : Json → Except Text.EncodingFault Text.Codec
  | .null => .ok .utf8
  | .string name => if '\x00' ∈ name.toList then .error .nulInName else codecs name
  | value => .error (.notText value.typeName)

def outputOptions (codecs : Text.Codecs) (members : List (String × Json)) : OutputOptions :=
  let value (name : String) : Json := (members.lookup name).getD .null
  { overwrite := (value "overwrite").isTrue
    backup := (value "backup").isTrue
    atomic := (value "atomic_write").isTrue
    extension := (value "file_extension").plain
    encoding := encodingOf codecs (value "encoding") }

/-- What settings mean; without output options their defaults are meant. -/
def config (s : Settings) : Config :=
  { anchor := s.textOf "domain_anchor"
    valuePackage := s.textOf "value_object_package"
    rootSuffix := s.textOf "aggregate_root_class_suffix"
    entitySuffix := s.textOf "simple_entity_class_suffix"
    idSuffix := s.textOf "id_class_suffix"
    serialSuffix := s.textOf "sn_class_suffix"
    rootBase := s.classOf "aggregate_root_base_class"
    entityBase := s.classOf "entity_base_class"
    valueInterface := s.classOf "value_object_interface"
    serialGenerator := s.classOf "serial_number_generator_class"
    serialExpression := s.textOf "serial_number_expression"
    emptyCheckClass := s.classOf "empty_check_class"
    emptyCheckMethod := s.textOf "empty_check_method"
    exceptionClass := s.classOf "exception_class"
    resultCodeClass := s.classOf "result_code_class"
    resultCodeConstant := s.textOf "result_code_constant"
    banner := (s.get "add_generation_comment").isTrue
    output := match s.output with
      | .options members => outputOptions s.codecs members
      | _ => {} }

/-- Refuses settings without output options, naming what was first looked for in them. -/
def checkOutput (s : Settings) (member : String) : Except SettingsError Unit :=
  match s.output with
  | .options _ => .ok ()
  | .value value => .error (.lacks value.typeName member)
  | .absent => .error outputMissing

/-- Refuses a number of workers that is not positive; no number leaves the choice open. -/
def checkWorkers (s : Settings) : Except SettingsError Unit :=
  let positive (p : Bool) : Except SettingsError Unit :=
    if p then .ok () else .error .workersNotPositive
  match s.get workersKey with
  | .null => .ok ()
  | .bool b => positive b
  | .int n => positive (0 < n)
  | .float .nan => .ok ()
  | .float (.infinity negative) => positive !negative
  | .float (.finite negative m _) => positive (!negative && m ≠ 0)
  | value => .error (.workersNotNumber value.typeName)

/-- How many workers a run has. Without a number there are always enough. -/
def workers (s : Settings) : Option Nat :=
  match s.get workersKey with
  | .bool b => some b.toNat
  | .int n => some n.toNat
  | .float (.finite _ m q) => some (Binary64.ceiling m q)
  | _ => none

/-- Fresh settings with the same values and with other output options. -/
def replaceOptions (s : Settings) (members : List (String × Json)) :
    Except SettingsError Settings :=
  match s.hasMembers with
  | .error e => .error e
  | .ok false => .ok { output := .options members, codecs := s.codecs }
  | .ok true => .ok { values := s.allValues, output := .options members, codecs := s.codecs }

end Settings

end DomainCodegen
