/-!
# Faults of settings

Why a settings document is refused, or settings cannot be shown or used.
-/

namespace DomainCodegen

inductive SettingsError where
  /-- A value, by its type, lacks a member that is looked for. -/
  | lacks (type member : String)
  | optionRefused (name : String)
  | classRefused (type : String)
  | membersRefused (type : String)
  | notWritable (name : String)
  | notCallable (type : String)
  | outputNotReplaceable
  | workersNotPositive
  | workersNotNumber (type : String)
  deriving DecidableEq, Repr

namespace SettingsError

/-- What messages call settings. -/
def settingsName : String := "CodeGeneratorConfig"

/-- What messages call output options. -/
def optionsName : String := "OutputConfig"

def message : SettingsError → String
  | lacks type member => "'" ++ type ++ "' object has no attribute '" ++ member ++ "'"
  | optionRefused name =>
    optionsName ++ ".__init__() got an unexpected keyword argument '" ++ name ++ "'"
  | classRefused type => "__class__ must be set to a class, not '" ++ type ++ "' object"
  | membersRefused type => "__dict__ must be set to a dictionary, not a '" ++ type ++ "'"
  | notWritable name =>
    "attribute '" ++ name ++ "' of '" ++ settingsName ++ "' objects is not writable"
  | notCallable type => "'" ++ type ++ "' object is not callable"
  | outputNotReplaceable => "replace() should be called on dataclass instances"
  | workersNotPositive => "max_workers must be greater than 0"
  | workersNotNumber type => "'<=' not supported between instances of '" ++ type ++ "' and 'int'"

end SettingsError

end DomainCodegen
