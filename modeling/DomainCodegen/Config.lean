import DomainCodegen.Text.Encoding

/-!
# Configuration

The names that generated code follows, the framework types that it uses, and how its files are
written.
-/

namespace DomainCodegen

/-- How files are written. -/
structure OutputOptions where
  overwrite : Bool := false
  backup : Bool := false
  atomic : Bool := true
  extension : String := ".java"
  encoding : Except Text.EncodingFault Text.Codec := .ok .utf8

/-- A setting that is to name a class. Only a text names one; a scalar and a container are known
by their types, since they are refused in different ways. -/
inductive ClassSetting where
  | named (name : String)
  | scalar (type : String)
  | container (type : String)
  deriving DecidableEq, Inhabited, Repr

namespace ClassSetting

/-- The name of the class, empty if there is none. -/
def text : ClassSetting → String
  | named name => name
  | _ => ""

/-- The type of a container. -/
def container? : ClassSetting → Option String
  | container type => some type
  | _ => none

/-- The type of a scalar. -/
def scalar? : ClassSetting → Option String
  | scalar type => some type
  | _ => none

end ClassSetting

structure Config where
  /-- The package segment after which the directories start. -/
  anchor : String := "domain"
  /-- The sub-package of the value objects of an entity. -/
  valuePackage : String := "valueobject"
  rootSuffix : String := "AggregateRootEntity"
  entitySuffix : String := "Entity"
  idSuffix : String := "Id"
  serialSuffix : String := "SN"
  rootBase : ClassSetting := .named "com.zz.core.ddd.base.AggregateRoot"
  entityBase : ClassSetting := .named "com.zz.core.ddd.base.BaseEntity"
  valueInterface : ClassSetting := .named "com.zz.core.ddd.base.ValueObject"
  serialGenerator : ClassSetting :=
    .named "com.zz.starter.serialno.template.SerialNoGeneratorTemplate"
  serialExpression : String := "SerialNoGeneratorTemplate.get().generateSerialNo()"
  emptyCheckClass : ClassSetting := .named "com.zz.core.tool.utils.ZzKits"
  emptyCheckMethod : String := "isEmpty"
  exceptionClass : ClassSetting := .named "com.zz.starter.log.exception.ServiceException"
  resultCodeClass : ClassSetting := .named "com.zz.core.tool.api.ResultCode"
  resultCodeConstant : String := "VALUE_OBJECT_NOT_NULL"
  /-- Whether a file starts with a line that says where it comes from. -/
  banner : Bool := true
  output : OutputOptions := {}

end DomainCodegen
