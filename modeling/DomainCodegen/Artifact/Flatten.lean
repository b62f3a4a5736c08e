import DomainCodegen.Artifact.Basic
import DomainCodegen.Config
import DomainCodegen.Name
import DomainCodegen.Schema.Error

/-!
# The artifacts of a schema

`Schema.Node.artifacts` lists the artifacts of a node: the one of the node itself, for an entity
its technical id and its serial number, and then the artifacts of the children in document order.
A field refers to a child by the class and the package of the child's own artifact.
-/

namespace DomainCodegen

open Artifact

namespace Config

def valuePackageOf (config : Config) (package : String) : String :=
  package ++ "." ++ config.valuePackage

def entityClass (config : Config) (name : String) (isRoot : Bool) : String :=
  Name.className name ++ if isRoot then config.rootSuffix else config.entitySuffix

def idClass (config : Config) (name : String) : String := Name.className name ++ config.idSuffix

def serialClass (config : Config) (name : String) : String :=
  Name.className name ++ config.serialSuffix

end Config

namespace Artifact

/-- The field that refers to a child. -/
def reference (info : Schema.Info) (className package : String) : Field :=
  { name := Name.fieldName info.name
    type := { className := some className, package := some package
              collection := info.cardinality = .multi }
    description := info.description }

/-- A value object that wraps one primitive. -/
def wrapper (package className : String) (kind : Kind) (description : String)
    (primitive : Schema.Primitive) : Artifact :=
  { package, className, kind, description
    fields := [{ name := "value", type := { primitive := some primitive }, role := .value,
                 description }] }

end Artifact

namespace Schema

/-- The field that refers to a value object in a package. -/
def ValueObject.reference (package : String) (v : ValueObject) : Field :=
  Artifact.reference v.info (Name.className v.info.name) package

/-- The artifact of a value object itself. -/
def ValueObject.artifact (package : String) (v : ValueObject) : Artifact :=
  let className := Name.className v.info.name
  match v with
  | .leaf info primitive =>
    { wrapper package className .valueObject info.description primitive with
      source := some (.value v) }
  | .composite info parts =>
    { package, className, kind := .valueObject, description := info.description
      fields := parts.map (ValueObject.reference package), source := some (.value v) }
  | .enumeration info variants =>
    { package, className, kind := .enumeration, description := info.description
      fields := [{ name := "businessMeaning", type := { primitive := some .string }, role := .value,
                   description := "业务含义" }]
      source := some (.value v), variants }

mutual

def ValueObject.artifacts (package : String) : ValueObject → List Artifact
  | .composite info parts =>
    ValueObject.artifact package (.composite info parts) :: artifactsOfParts package parts
  | v => [ValueObject.artifact package v]

def artifactsOfParts (package : String) : List ValueObject → List Artifact
  | [] => []
  | v :: r => ValueObject.artifacts package v ++ artifactsOfParts package r

end

/-- The package of an entity that stands in an entity of a package. -/
def childPackage (package : String) : Option String → String
  | some sub => if sub = "" then package else package ++ "." ++ sub
  | none => package

/-- The field that refers to a member of an entity whose package is given. -/
def Node.reference (config : Config) (package : String) : Node → Field
  | .value v => v.reference (config.valuePackageOf package)
  | .entity info isRoot sub _ =>
    Artifact.reference info (config.entityClass info.name isRoot) (childPackage package sub)

def idArtifact (config : Config) (package : String) (info : Info) : Artifact :=
  wrapper (config.valuePackageOf package) (config.idClass info.name) .technicalId
    (info.description ++ "技术Id") .long

def serialArtifact (config : Config) (package : String) (info : Info) : Artifact :=
  wrapper (config.valuePackageOf package) (config.serialClass info.name) .serialNumber
    (info.description ++ "业务编号") .string

/-- The field of an entity that holds a value object made for it. -/
def companionField (info : Info) (suffix : String) (role : Role) (companion : Artifact) : Field :=
  { name := Name.fieldName info.name ++ suffix
    type := { className := some companion.className, package := some companion.package }
    role, description := companion.description }

/-- The artifact of an entity itself. -/
def entityArtifact (config : Config) (package : String) (info : Info) (isRoot : Bool)
    (sub : Option String) (members : List Node) : Artifact :=
  { package
    className := config.entityClass info.name isRoot
    kind := if isRoot then .aggregateRoot else .simpleEntity
    description := info.description
    fields :=
      companionField info config.idSuffix .identity (idArtifact config package info) ::
      companionField info config.serialSuffix .serialNumber (serialArtifact config package info) ::
      members.map (Node.reference config package)
    source := some (.entity info isRoot sub members)
    idClass := some (config.idClass info.name) }

mutual

/-- The artifacts of a node; an entity stands in the package itself, a value object in the value
package below it. -/
def Node.artifacts (config : Config) (package : String) : Node → List Artifact
  | .value v => v.artifacts (config.valuePackageOf package)
  | .entity info isRoot sub members =>
    entityArtifact config package info isRoot sub members :: idArtifact config package info ::
      serialArtifact config package info :: artifactsOfMembers config package members

/-- The artifacts of the members of an entity whose package is given. -/
def artifactsOfMembers (config : Config) (package : String) : List Node → List Artifact
  | [] => []
  | .value v :: r =>
    Node.artifacts config package (.value v) ++ artifactsOfMembers config package r
  | .entity info isRoot sub members :: r =>
    Node.artifacts config (childPackage package sub) (.entity info isRoot sub members) ++
      artifactsOfMembers config package r

end

end Schema

namespace Artifact

/-- Where an artifact comes from, for a message. -/
def origin (a : Artifact) : String := a.source.elim "synthesized" fun node => node.info.place.text

/-- The first artifact whose key an earlier one has, and that earlier one; `seen` holds the
earlier artifacts. -/
def firstDouble (seen : List Artifact) : List Artifact → Option (Artifact × Artifact)
  | [] => none
  | a :: r =>
    match seen.find? fun b => b.key = a.key with
    | some b => some (b, a)
    | none => firstDouble (seen ++ [a]) r

def doubleError (first second : Artifact) : Schema.Error :=
  { place := second.source.elim [] fun node => node.info.place
    cause := .classTwice second.qualifiedName first.origin second.origin }

end Artifact

/-- The artifacts of a tree in production order, provided that no class is generated twice. -/
def Schema.Tree.artifacts (config : Config) (package : String) (tree : Schema.Tree) :
    Except Schema.Error (List Artifact) :=
  let all := tree.node.artifacts config package
  match firstDouble [] all with
  | some (first, second) => .error (doubleError first second)
  | none => .ok all

end DomainCodegen
