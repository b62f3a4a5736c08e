import DomainCodegen.Schema.Node

/-!
# Artifacts

An artifact is one Java type to generate: an entity, a value object, an enumeration, or one of the
two value objects that are made for every entity, its technical id and its serial number.
-/

namespace DomainCodegen

namespace Artifact

inductive Kind where
  | aggregateRoot
  | simpleEntity
  | valueObject
  | enumeration
  | technicalId
  | serialNumber
  deriving DecidableEq, Inhabited, Repr

namespace Kind

def all : List Kind :=
  [aggregateRoot, simpleEntity, valueObject, enumeration, technicalId, serialNumber]

def word : Kind → String
  | aggregateRoot => "AggregateRoot"
  | simpleEntity => "SimpleEntity"
  | valueObject => "ValueObject"
  | enumeration => "EnumValueObject"
  | technicalId => "BasicId"
  | serialNumber => "BasicSN"

def ofWord? (s : String) : Option Kind := all.find? fun kind => kind.word = s

def isEntity : Kind → Bool
  | aggregateRoot => true
  | simpleEntity => true
  | _ => false

end Kind

/-- Why a field exists: it holds the primitive of a leaf, the id or the serial number of an
entity, or something that the schema declares. -/
inductive Role where
  | value
  | identity
  | serialNumber
  | declared
  deriving DecidableEq, Inhabited, Repr

namespace Role

def all : List Role := [value, identity, serialNumber, declared]

def word : Role → String
  | value => "value"
  | identity => "identity"
  | serialNumber => "serial_number"
  | declared => "attribute"

def ofWord? (s : String) : Option Role := all.find? fun role => role.word = s

end Role

/-- The type of a field: a primitive, or a class in a package. A primitive comes before a class.
A collection is an ordered list of the type. -/
structure TypeRef where
  primitive : Option Schema.Primitive := none
  className : Option String := none
  package : Option String := none
  collection : Bool := false
  deriving DecidableEq, Inhabited, Repr

structure Field where
  name : String
  type : TypeRef
  role : Role := .declared
  description : String := ""
  deriving DecidableEq, Inhabited, Repr

end Artifact

structure Artifact where
  package : String
  className : String
  kind : Artifact.Kind
  description : String := ""
  fields : List Artifact.Field := []
  /-- The node that the artifact comes from; the id and the serial number of an entity have none. -/
  source : Option Schema.Node := none
  /-- The class of the technical id of an entity. -/
  idClass : Option String := none
  variants : List Schema.Variant := []
  deriving Inhabited

namespace Artifact

def key (a : Artifact) : String × String := (a.package, a.className)

def qualifiedName (a : Artifact) : String := a.package ++ "." ++ a.className

end Artifact

end DomainCodegen
