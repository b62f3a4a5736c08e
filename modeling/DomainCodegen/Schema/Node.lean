import DomainCodegen.Text.Blank
import DomainCodegen.Text.Case

/-!
# The schema tree

A schema describes one entity and what it is made of: further entities, and value objects. A value
object wraps a primitive, or is composed of other value objects, or is one of a fixed set of named
variants; no entity ever stands inside one.
-/

namespace DomainCodegen.Schema

/-- The kinds of nodes that a document can ask for. -/
inductive Kind where
  | aggregateRoot
  | simpleEntity
  | valueObject
  | enumeration
  deriving DecidableEq, Inhabited, Repr

namespace Kind

def all : List Kind := [aggregateRoot, simpleEntity, valueObject, enumeration]

/-- The word for a kind in a document. -/
def word : Kind → String
  | aggregateRoot => "AggregateRootEntity"
  | simpleEntity => "SimpleEntity"
  | valueObject => "ValueObject"
  | enumeration => "enum implements ValueObject"

/-- The kind that a word names; an enumeration has a second, shorter word. -/
def ofWord? (s : String) : Option Kind :=
  if s = "EnumValueObject" then some enumeration else all.find? fun kind => kind.word = s

end Kind

/-- Whether a field holds one value or an ordered list of them. -/
inductive Cardinality where
  | single
  | multi
  deriving DecidableEq, Inhabited, Repr

namespace Cardinality

def word : Cardinality → String
  | single => "SINGLE"
  | multi => "MULTI"

/-- Blanks at the ends and letter case are not looked at. -/
def ofWord? (s : String) : Option Cardinality :=
  [single, multi].find? fun c => c.word.toList = Text.capitals (Text.strip s.toList)

end Cardinality

/-- The primitive types that a value object can wrap. -/
inductive Primitive where
  | string
  | integer
  | boolean
  | long
  | decimal
  | dateTime
  deriving DecidableEq, Inhabited, Repr

namespace Primitive

def all : List Primitive := [string, integer, boolean, long, decimal, dateTime]

def word : Primitive → String
  | string => "STRING"
  | integer => "INTEGER"
  | boolean => "BOOLEAN"
  | long => "LONG"
  | decimal => "DECIMAL"
  | dateTime => "DATETIME"

/-- Blanks at the ends and letter case are not looked at; a date and time has a second word. -/
def ofWord? (s : String) : Option Primitive :=
  let cs := Text.capitals (Text.strip s.toList)
  if cs = "LOCAL_DATETIME".toList then some dateTime else all.find? fun p => p.word.toList = cs

end Primitive

/-- One member of an enumeration: the name of its constant and what it means. -/
structure Variant where
  constant : String
  meaning : String
  deriving DecidableEq, Inhabited, Repr

/-- A step from a place in a document to a place inside it. -/
inductive Step where
  | child (index : Nat)
  | variant (index : Nat)
  deriving DecidableEq, Inhabited, Repr

/-- A place in a document, as the steps that lead to it from the root. -/
abbrev Place := List Step

def Step.text : Step → String
  | child i => ".attributes[" ++ toString i ++ "]"
  | variant i => ".enumData[" ++ toString i ++ "]"

def Place.text (place : Place) : String := "$" ++ String.join (place.map Step.text)

/-- What every node has. -/
structure Info where
  name : String
  description : String
  cardinality : Cardinality
  place : Place
  deriving DecidableEq, Inhabited, Repr

inductive ValueObject where
  | leaf (info : Info) (primitive : Primitive)
  | composite (info : Info) (parts : List ValueObject)
  | enumeration (info : Info) (variants : List Variant)
  deriving Inhabited

/-- A node of the tree. The sub-package of an entity is relative to the package of the entity that
holds it. -/
inductive Node where
  | value (v : ValueObject)
  | entity (info : Info) (isRoot : Bool) (subPackage : Option String) (members : List Node)
  deriving Inhabited

namespace ValueObject

def info : ValueObject → Info
  | leaf info _ => info
  | composite info _ => info
  | enumeration info _ => info

def kind : ValueObject → Kind
  | enumeration _ _ => .enumeration
  | _ => .valueObject

end ValueObject

namespace Node

def info : Node → Info
  | value v => v.info
  | entity info _ _ _ => info

def kind : Node → Kind
  | value v => v.kind
  | entity _ isRoot _ _ => if isRoot then .aggregateRoot else .simpleEntity

def value? : Node → Option ValueObject
  | value v => some v
  | entity _ _ _ _ => none

end Node

/-- The entity at the root of a document, with all that it owns. -/
structure Tree where
  info : Info
  isRoot : Bool
  subPackage : Option String
  members : List Node

def Tree.node (t : Tree) : Node := .entity t.info t.isRoot t.subPackage t.members

end DomainCodegen.Schema
