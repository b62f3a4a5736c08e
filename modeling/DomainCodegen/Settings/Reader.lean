import DomainCodegen.Settings.Basic
import DomainCodegen.Settings.Reserved

/-!
# Reading settings

A settings document overrides any part of the defaults. Names that mean nothing are left out. Some
names with two underscores at both ends stand for the settings as a whole, and no name that is
reserved in what there is for the output is an output option.
-/

namespace DomainCodegen

namespace OutputSetting

/-- Whether a name is reserved in what there is for the output. -/
def reserves : OutputSetting → String → Bool
  | options _, name => Settings.optionsReserve name
  | value given, name => Settings.reserves given name
  | absent, _ => false

/-- Sets the names of `members` that `values` has. -/
def override (values members : List (String × Json)) : List (String × Json) :=
  members.foldl (fun values (name, given) =>
    if (values.lookup name).isSome then Members.set name given values else values) values

/-- The options that an object asks for, over the defaults. It may only name options that there are
in what it takes the place of, so nothing is read in the place of another value. -/
def ofMembers (present : OutputSetting) (members : List (String × Json)) :
    Except SettingsError OutputSetting :=
  match members.find? fun (name, _) => present.reserves name with
  | some (name, _) => .error (.optionRefused name)
  | none =>
    match present with
    | options _ => .ok (options (override defaults members))
    | value _ => .ok (options defaults)
    | absent => if members = [] then .ok (options defaults) else .error Settings.outputMissing

end OutputSetting

namespace Settings

/-- Settings with no other values than these. An object among them stands for itself, and not for
output options. -/
def ofValues (codecs : Text.Codecs) (values : List (String × Json)) : Settings :=
  { values, output := (values.lookup outputKey).elim .absent .value, codecs }

/-- The names whose values are kept. -/
def keptNames : List String := showKey :: membersKey :: defaultValues.map Prod.fst

/-- Gives the output a value; a value that is no object takes the place of one. -/
def assignOutput (s : Settings) : Json → Except SettingsError Settings
  | .object members => (s.output.ofMembers members).map fun output => { s with output }
  | value =>
    match s.output with
    | .absent => .ok s
    | _ => .ok { s with output := .value value }

/-- Gives one name of a document its value. -/
def assign (s : Settings) (name : String) (value : Json) : Except SettingsError Settings :=
  if name = outputKey then s.assignOutput value
  else if name = "__class__" then .error (.classRefused value.typeName)
  else if name = "__weakref__" then .error (.notWritable name)
  else if name = valuesKey then
    match value with
    | .object members => .ok (ofValues s.codecs members)
    | value => .error (.membersRefused value.typeName)
  else if keptNames.contains name then .ok (s.set name value)
  else .ok s

/-- Gives the names of a document their values, one after the other. -/
def assignAll (s : Settings) : List (String × Json) → Except SettingsError Settings
  | [] => .ok s
  | (name, value) :: r =>
    match s.assign name value with
    | .error e => .error e
    | .ok s => s.assignAll r

/-- The settings of a document, on a machine with some codecs. -/
def ofJson (codecs : Text.Codecs) : Json → Except SettingsError Settings
  | .object members => assignAll { codecs } members
  | doc => .error (.lacks doc.typeName "items")

end Settings

end DomainCodegen
