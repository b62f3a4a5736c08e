import DomainCodegen.Artifact.Basic
import DomainCodegen.Config
import DomainCodegen.Java.Source
import DomainCodegen.Name
import DomainCodegen.Text.Quoted

/-!
# Rendering an artifact

`Artifact.file` gives the source file of an artifact, or says why there is none: a name that Java
does not allow, or content that is missing or ambiguous. Names are checked before content.
-/

namespace DomainCodegen

open Java

namespace Artifact

/-- Why an artifact has no source file. -/
inductive RenderCause where
  | classNameInvalid (name : String)
  | fieldNameInvalid (index : Nat) (name : String)
  | fieldsMissing
  | variantsMissing
  | constantInvalid (index : Nat) (name : String)
  | constantTwice (name : String)
  | meaningMissing (name : String)
  | idMissing
  | serialNumberCount
  | nameMissing
  /-- A container, by its type, is to be imported. -/
  | importContainer (type : String)
  /-- A scalar that is no text, by its type, is to be imported. -/
  | importScalar (type : String)
  /-- The class of value objects has no simple name. -/
  | interfaceNameless (type : String)
  deriving DecidableEq, Repr

variable [Surrogates]

def RenderCause.message : RenderCause → String
  | classNameInvalid name => "invalid Java class name " ++ Text.quoted name
  | fieldNameInvalid _ name => "invalid Java field name " ++ Text.quoted name
  | fieldsMissing => "a value object needs at least one field"
  | variantsMissing => "an enum value object needs at least one variant"
  | constantInvalid _ name => "invalid enum constant name " ++ Text.quoted name
  | constantTwice name => "duplicate enum constant " ++ Text.quoted name
  | meaningMissing name => "enum constant " ++ Text.quoted name ++ " has no business meaning"
  | idMissing => "an entity needs an Id value object"
  | serialNumberCount => "an entity needs exactly one SN field"
  | nameMissing => "malformed unit: expected string or bytes-like object, got 'NoneType'"
  | importContainer type => "malformed unit: unhashable type: '" ++ type ++ "'"
  | importScalar type =>
    "malformed unit: '<' not supported between instances of '" ++ type ++ "' and 'str'"
  | interfaceNameless type => "'" ++ type ++ "' object has no attribute 'rsplit'"

/-- Whether a cause lies in the artifact and what it imports. -/
def RenderCause.isOfArtifact : RenderCause → Bool
  | interfaceNameless _ => false
  | _ => true

structure RenderError where
  className : String
  cause : RenderCause
  deriving DecidableEq, Repr

/-- A cause that does not lie in the artifact is told without it. -/
def RenderError.message (e : RenderError) : String :=
  if e.cause.isOfArtifact then "Failed to render " ++ e.className ++ ": " ++ e.cause.message
  else e.cause.message

/-! ## Types and imports -/

def primitiveClass : Schema.Primitive → String
  | .string => "String"
  | .integer => "Integer"
  | .boolean => "Boolean"
  | .long => "Long"
  | .decimal => "BigDecimal"
  | .dateTime => "LocalDateTime"

def primitiveImport : Schema.Primitive → Option String
  | .decimal => some "java.math.BigDecimal"
  | .dateTime => some "java.time.LocalDateTime"
  | _ => none

/-- A text that is there and not empty. -/
def present (s : Option String) : Option String := s.filter (· ≠ "")

def TypeRef.use (t : TypeRef) : TypeUse :=
  { list := t.collection
    name := match t.primitive with
      | some p => primitiveClass p
      | none => (present t.className).getD "Object" }

/-- The class of a type, unless it stands in the given package. -/
def TypeRef.classImport (package : String) (t : TypeRef) : Option String :=
  match present t.className, present t.package with
  | some className, some home => if home = package then none else some (home ++ "." ++ className)
  | _, _ => none

/-- What a field of a type makes a file in the given package import. -/
def TypeRef.imports (package : String) (t : TypeRef) : List String :=
  (if t.collection then ["java.util.List"] else []) ++
  (match t.primitive with
    | some p => (primitiveImport p).toList
    | none => (t.classImport package).toList)

/-- The settings of the classes that a file imports have to be texts. A container is refused before
a scalar. -/
def checkClasses (classes : List ClassSetting) : Except RenderCause Unit :=
  match classes.findSome? ClassSetting.container?, classes.findSome? ClassSetting.scalar? with
  | some type, _ => .error (.importContainer type)
  | none, some type => .error (.importScalar type)
  | none, none => .ok ()

/-- The interface of value objects, which even a file that does not import it looks for. -/
def checkInterface : ClassSetting → Except RenderCause Unit
  | .named _ => .ok ()
  | .scalar type => .error (.interfaceNameless type)
  | .container type => .error (.interfaceNameless type)

/-- Imports in the order in which a file lists them, each once. -/
def importList (names : List String) : List String :=
  (names.eraseDups).mergeSort fun a b => decide (a ≤ b)

/-! ## Members -/

/-- Says who sets the id and the serial number of an entity. -/
def companionNote : String :=
  "由 toNew() 分配或由仓储重建时赋值; builder 仅用于持久化重建, 领域代码不应通过 builder 设置"

/-- A text, or another one when it is empty. -/
def orElse (s other : String) : String := if s = "" then other else s

def Field.member (f : Field) : Member :=
  { type := f.type.use
    name := f.name
    doc := orElse f.description f.name
    note := if f.role = .identity ∨ f.role = .serialNumber then some companionNote else none }

/-- Decimals are compared by order, so that their precision does not matter. -/
def Field.comparison (f : Field) : Comparison :=
  if f.type.primitive = some .decimal ∧ !f.type.collection then .order else .equality

/-- A field of a value object; its Javadoc has no further line. -/
def Field.valueMember (f : Field) : Member × Comparison :=
  ({ f.member with note := none }, f.comparison)

/-! ## Files -/

/-- The line that says where a file comes from. -/
def bannerText : String := "Generated by java_ddd_codegen from the domain model schema."

def fileOf (config : Config) (a : Artifact) (imports : List String) (declaration : Declaration) :
    File :=
  { banner := if config.banner then some bannerText else none
    package := a.package
    imports := importList imports
    doc := orElse a.description a.className
    declaration }

def checkNames (a : Artifact) (index : Nat) : List Field → Except RenderCause Unit
  | [] => .ok ()
  | f :: r =>
    if Name.isIdentifier f.name then a.checkNames (index + 1) r
    else .error (.fieldNameInvalid index f.name)

/-- The class name is checked first and then the fields in order. -/
def checkAllNames (a : Artifact) : Except RenderCause Unit :=
  if Name.isIdentifier a.className then a.checkNames 0 a.fields
  else .error (.classNameInvalid a.className)

def fieldImports (a : Artifact) : List String := a.fields.flatMap fun f => f.type.imports a.package

/-- The settings of the classes that every value object imports. -/
def valueClasses (config : Config) : List ClassSetting :=
  [config.valueInterface, config.emptyCheckClass, config.exceptionClass, config.resultCodeClass]

def simpleClass (setting : ClassSetting) : String := Name.simpleName setting.text

def valueFile (config : Config) (a : Artifact) : Except RenderCause File :=
  if a.fields.isEmpty then .error .fieldsMissing
  else match checkClasses (valueClasses config) with
    | .error cause => .error cause
    | .ok () =>
      let members := a.fields.map Field.valueMember
      let imports :=
        ["lombok.EqualsAndHashCode", "lombok.Getter"] ++
        (valueClasses config).map ClassSetting.text ++
        a.fieldImports ++
        (if members.any fun p => p.2 == .equality then ["java.util.Objects"] else [])
      .ok <| a.fileOf config imports <| .value
        { name := a.className
          interface := simpleClass config.valueInterface
          members
          emptyCheck := simpleClass config.emptyCheckClass ++ "." ++ config.emptyCheckMethod
          exception := simpleClass config.exceptionClass
          resultCode := simpleClass config.resultCodeClass ++ "." ++ config.resultCodeConstant }

/-- Checks variants from one of them on; `seen` holds the names of the earlier constants. -/
def checkVariants (seen : List String) (index : Nat) : List Schema.Variant → Except RenderCause Unit
  | [] => .ok ()
  | v :: r =>
    if !Name.isIdentifier v.constant then .error (.constantInvalid index v.constant)
    else if seen.contains v.constant then .error (.constantTwice v.constant)
    else if v.meaning = "" then .error (.meaningMissing v.constant)
    else checkVariants (v.constant :: seen) (index + 1) r

def enumFile (config : Config) (a : Artifact) : Except RenderCause File :=
  if a.variants.isEmpty then .error .variantsMissing
  else match checkVariants [] 0 a.variants, checkClasses [config.valueInterface] with
    | .error cause, _ => .error cause
    | _, .error cause => .error cause
    | .ok (), .ok () =>
      .ok <| a.fileOf config ["lombok.Getter", config.valueInterface.text] <| .enumeration
        { name := a.className
          interface := simpleClass config.valueInterface
          constants := a.variants.map fun v => (v.constant, v.meaning) }

/-- The setting of the class that an entity extends. -/
def baseClass (config : Config) (a : Artifact) : ClassSetting :=
  if a.kind = .aggregateRoot then config.rootBase else config.entityBase

def entityFile (config : Config) (a : Artifact) : Except RenderCause File :=
  let base := a.baseClass config
  match present a.idClass, a.fields.filter fun f => f.role = .serialNumber with
  | none, _ => .error .idMissing
  | some idClass, [serial] =>
    match checkClasses [base, config.serialGenerator], checkInterface config.valueInterface with
    | .error cause, _ => .error cause
    | _, .error cause => .error cause
    | .ok (), .ok () =>
      let imports :=
        ["lombok.AccessLevel", "lombok.EqualsAndHashCode", "lombok.Getter", "lombok.Setter",
          "lombok.experimental.SuperBuilder", base.text, config.serialGenerator.text] ++
        a.fieldImports ++
        (if a.fields.any fun f => f.type.collection then ["java.util.ArrayList"] else [])
      .ok <| a.fileOf config imports <| .entity
        { name := a.className
          base := simpleClass base
          idClass
          members := a.fields.map Field.member
          serialField := serial.name
          serialClass := serial.type.className.getD "None"
          serialExpression := config.serialExpression }
  | some _, _ => .error .serialNumberCount

def fileOrCause (config : Config) (a : Artifact) : Except RenderCause File :=
  match a.checkAllNames with
  | .error cause => .error cause
  | .ok () =>
    if a.kind.isEntity then a.entityFile config
    else if a.kind = .enumeration then a.enumFile config
    else a.valueFile config

/-- The source file of an artifact. -/
def file (config : Config) (a : Artifact) : Except RenderError File :=
  (a.fileOrCause config).mapError fun cause => ⟨orElse a.className "<unnamed>", cause⟩

/-- The text of an artifact. -/
def render (config : Config) (a : Artifact) : Except RenderError String :=
  (a.file config).map File.print

end Artifact

end DomainCodegen
