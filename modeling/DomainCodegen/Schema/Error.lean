import DomainCodegen.Json.Display
import DomainCodegen.Json.Reader
import DomainCodegen.Schema.Node

/-!
# Faults of a schema

Why a document is no schema, and the place in the document that is to blame.
-/

namespace DomainCodegen.Schema

inductive Cause where
  | notJson (error : Json.ReadError)
  | rootNotObject
  | rootNotEntity (kind : Kind)
  | nodeNotObject
  | nameMissing
  | nameUnusable (name : String)
  | kindUnknown (given : Json)
  | descriptionNotText
  | cardinalityUnknown (given : Json)
  | attributesNotArray
  | rootNested
  | subPackageMalformed (given : Json)
  | primitiveUnknown (given : Json)
  | entityInValueObject (name : String)
  | valueObjectEmpty
  | valueObjectDouble
  | holderExpected
  | variantsDouble
  | variantsNotJson (error : Json.ReadError)
  | variantsMissing
  | variantNotObject
  | classTwice (qualified first second : String)

namespace Cause

def message [Surrogates] : Cause → String
  | notJson error => "invalid JSON: " ++ error.message
  | rootNotObject => "schema root must be a JSON object"
  | rootNotEntity kind =>
    "root node must be " ++ Kind.aggregateRoot.word ++ " or " ++ Kind.simpleEntity.word ++
      ", got " ++ Text.quoted kind.word
  | nodeNotObject => "node must be a JSON object"
  | nameMissing => "missing or empty 'name'"
  | nameUnusable name =>
    "'name' " ++ Text.quoted name ++
      " does not give a Java class and field name (use latin letters and digits)"
  | kindUnknown given =>
    "'type' must be one of: " ++ ", ".intercalate (Kind.all.map Kind.word) ++ " (got " ++
      given.display ++ ")"
  | descriptionNotText => "'description' must be a string"
  | cardinalityUnknown given => "'itemFormat' must be SINGLE or MULTI (got " ++ given.display ++ ")"
  | attributesNotArray => "'attributes' must be an array"
  | rootNested => Kind.aggregateRoot.word ++ " cannot be nested inside an entity"
  | subPackageMalformed given =>
    "'subPackage' must be lowercase dotted segments (got " ++ given.display ++ ")"
  | primitiveUnknown given =>
    "'realDataType' must be one of: " ++ ", ".intercalate (Primitive.all.map Primitive.word) ++
      " (got " ++ given.display ++ ")"
  | entityInValueObject name => "a ValueObject cannot contain the entity " ++ Text.quoted name
  | valueObjectEmpty => "a ValueObject needs either 'realDataType' or non-empty 'attributes'"
  | valueObjectDouble => "a ValueObject cannot have both 'realDataType' and 'attributes'"
  | holderExpected => "an enum ValueObject can only hold a single 'ENUM' attribute"
  | variantsDouble => "an enum ValueObject cannot have both enum data and 'attributes'"
  | variantsNotJson error => "'enumData' is not valid JSON: " ++ error.message
  | variantsMissing => "an enum ValueObject needs a non-empty 'enumData' list"
  | variantNotObject => "enum variant must be a JSON object"
  | classTwice qualified first second =>
    "class " ++ qualified ++ " is generated twice (from " ++ first ++ " and " ++ second ++ ")"

end Cause

/-- The fault of a JSON text that is refused for a number with too many digits. The text is refused
before it can be a schema or not. -/
def Cause.refusal? : Cause → Option Json.ReadError
  | notJson error => if error.fault.isOfSyntax then none else some error
  | variantsNotJson error => if error.fault.isOfSyntax then none else some error
  | _ => none

/-- Whether a cause is a fault of the schema. -/
def Cause.isOfSchema (cause : Cause) : Bool := cause.refusal?.isNone

structure Error where
  place : Place
  cause : Cause

/-- What is wrong and where, or only why a text is refused. -/
def Error.message [Surrogates] (e : Error) : String :=
  match e.cause.refusal? with
  | some error => error.message
  | none => e.place.text ++ ": " ++ e.cause.message

end DomainCodegen.Schema
