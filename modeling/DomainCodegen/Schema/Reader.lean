import DomainCodegen.PackageName
import DomainCodegen.Schema.Error

/-!
# Reading a schema

`Tree.read` turns a document into a schema tree, or says what the first fault is and where it is.
Several keys have a second spelling, and the first spelling that an object has is the one that
counts. A node is checked before its children, a child before its siblings, and what a node says
about its children as a whole after all of them.
-/

namespace DomainCodegen.Schema

open Json (firstOf firstOf?)

def kindKeys : List String := ["type", "kind"]

def attributesKeys : List String := ["attributes", "children"]

def cardinalityKeys : List String := ["itemFormat", "cardinality"]

def primitiveKeys : List String := ["realDataType", "primitiveType"]

def variantsKeys : List String := ["enumData", "enumVariants"]

def constantKeys : List String := ["englishName", "symbolicName"]

/-- The type of the attribute that can hold the variants of an enumeration. -/
def holderWord : String := "ENUM"

/-! ## Parts of a node -/

/-- A name that is not blank, and that gives a class name and a field name. -/
def readName (doc : Json) (place : Place) : Except Error String :=
  match doc.get? "name" with
  | some (.string s) =>
    let name := Text.stripped s
    if name = "" then .error ⟨place, .nameMissing⟩
    else if Name.isIdentifier (Name.className name) && Name.isIdentifier (Name.fieldName name) then
      .ok name
    else .error ⟨place, .nameUnusable name⟩
  | _ => .error ⟨place, .nameMissing⟩

def readKind (doc : Json) (place : Place) : Except Error Kind :=
  let given := doc.firstOf kindKeys
  match given with
  | .string s => (Kind.ofWord? s).elim (.error ⟨place, .kindUnknown given⟩) .ok
  | _ => .error ⟨place, .kindUnknown given⟩

/-- A description that is absent or blank is made from the name. -/
def readDescription (doc : Json) (name : String) (place : Place) : Except Error String :=
  match (doc.get? "description").getD .null with
  | .null => .ok (name ++ "领域模型")
  | .string s =>
    let description := Text.stripped s
    .ok (if description = "" then name ++ "领域模型" else description)
  | _ => .error ⟨place, .descriptionNotText⟩

def readCardinality (doc : Json) (place : Place) : Except Error Cardinality :=
  let given := doc.firstOf cardinalityKeys
  match given with
  | .null => .ok .single
  | .string s => (Cardinality.ofWord? s).elim (.error ⟨place, .cardinalityUnknown given⟩) .ok
  | _ => .error ⟨place, .cardinalityUnknown given⟩

/-- What every node starts with. -/
def readHead (doc : Json) (place : Place) : Except Error (Kind × Info) :=
  match doc with
  | .object _ => do
    let name ← readName doc place
    let kind ← readKind doc place
    let description ← readDescription doc name place
    let cardinality ← readCardinality doc place
    return (kind, { name, description, cardinality, place })
  | _ => .error ⟨place, .nodeNotObject⟩

/-- The documents of the children; nothing when they are no array. -/
def attributes? (doc : Json) : Option (List Json) :=
  match doc.firstOf? attributesKeys with
  | none => some []
  | some .null => some []
  | some (.array docs) => some docs
  | some _ => none

theorem sizeOf_of_attributes? {doc : Json} {docs : List Json} (h : attributes? doc = some docs) :
    sizeOf docs ≤ sizeOf doc := by
  have hpos : 1 ≤ sizeOf doc := by cases doc <;> simp +arith
  unfold attributes? at h
  split at h
  · cases h; simpa using hpos
  · cases h; simpa using hpos
  · rename_i heq
    cases h
    have := Json.sizeOf_of_firstOf? heq
    simp only [Json.array.sizeOf_spec] at this
    omega
  · cases h

/-- Only an entity below the root has a sub-package. -/
def readSubPackage (doc : Json) (place : Place) : Except Error (Option String) :=
  match (doc.get? "subPackage").getD .null with
  | .null => .ok none
  | .string s =>
    if PackageName.isValid s then .ok (some s) else .error ⟨place, .subPackageMalformed (.string s)⟩
  | given => .error ⟨place, .subPackageMalformed given⟩

def readPrimitive (doc : Json) (place : Place) : Except Error (Option Primitive) :=
  let given := doc.firstOf primitiveKeys
  match given with
  | .null => .ok none
  | .string s =>
    (Primitive.ofWord? s).elim (.error ⟨place, .primitiveUnknown given⟩) fun p => .ok (some p)
  | _ => .error ⟨place, .primitiveUnknown given⟩

/-! ## Variants -/

variable [Surrogates]

/-- The text of a value of a variant, without blanks at its ends; a missing value is empty. -/
def variantText : Json → String
  | .null => ""
  | value => Text.stripped value.plain

def readVariant (place : Place) (index : Nat) (doc : Json) : Except Error Variant :=
  match doc with
  | .object _ => .ok
    { constant := variantText (doc.firstOf constantKeys)
      meaning := variantText ((doc.get? "businessMeaning").getD .null) }
  | _ => .error ⟨place ++ [.variant index], .variantNotObject⟩

def readVariantsFrom (place : Place) : Nat → List Json → Except Error (List Variant)
  | _, [] => .ok []
  | index, doc :: r => do
    let variant ← readVariant place index doc
    return variant :: (← readVariantsFrom place (index + 1) r)

/-- A list of variants, which has at least one. -/
def readVariantList (place : Place) : Json → Except Error (List Variant)
  | .array (doc :: r) => readVariantsFrom place 0 (doc :: r)
  | _ => .error ⟨place, .variantsMissing⟩

/-- A list of variants, which may be written as the JSON text of the list. -/
def readVariantData (place : Place) : Json → Except Error (List Variant)
  | .string s =>
    match Json.read s with
    | .error e => .error ⟨place, .variantsNotJson e⟩
    | .ok doc => readVariantList place doc
  | doc => readVariantList place doc

/-- The variants of an enumeration: on the node itself, or on a single child of the holder type. -/
def readVariants (doc : Json) (place : Place) : Except Error (List Variant) :=
  let data := doc.firstOf variantsKeys
  match attributes? doc with
  | none => .error ⟨place, .attributesNotArray⟩
  | some [] => readVariantData place data
  | some docs =>
    if !data.isNull then .error ⟨place, .variantsDouble⟩
    else match docs with
      | [.object members] =>
        let holder : Json := .object members
        match holder.get? "type" with
        | some (.string word) =>
          if word = holderWord then
            readVariantData (place ++ [.child 0]) (holder.firstOf variantsKeys)
          else .error ⟨place, .holderExpected⟩
        | _ => .error ⟨place, .holderExpected⟩
      | _ => .error ⟨place, .holderExpected⟩

/-! ## Nodes -/

/-- The nodes that have children. -/
inductive Host where
  | entity
  | valueObject

/-- Why a node cannot be a child of a host. -/
def Host.refusal : Host → Node → Option Cause
  | entity, .entity _ true _ _ => some .rootNested
  | valueObject, .entity info _ _ _ => some (.entityInValueObject info.name)
  | _, _ => none

/-- A value object wraps a primitive or is composed of parts, and not both. -/
def makeValueObject (info : Info) : Option Primitive → List ValueObject → Except Error ValueObject
  | none, [] => .error ⟨info.place, .valueObjectEmpty⟩
  | some primitive, [] => .ok (.leaf info primitive)
  | none, parts => .ok (.composite info parts)
  | some _, _ => .error ⟨info.place, .valueObjectDouble⟩

mutual

def readNode (doc : Json) (place : Place) : Except Error Node :=
  match readHead doc place with
  | .error e => .error e
  | .ok (.enumeration, info) =>
    (readVariants doc place).map fun variants => .value (.enumeration info variants)
  | .ok (.valueObject, info) =>
    match readPrimitive doc place with
    | .error e => .error e
    | .ok primitive =>
      match _h : attributes? doc with
      | none => .error ⟨place, .attributesNotArray⟩
      | some docs =>
        match readChildren .valueObject place 0 docs with
        | .error e => .error e
        | .ok children =>
          (makeValueObject info primitive (children.filterMap Node.value?)).map .value
  | .ok (kind, info) =>
    match _h : attributes? doc with
    | none => .error ⟨place, .attributesNotArray⟩
    | some docs =>
      match readChildren .entity place 0 docs with
      | .error e => .error e
      | .ok members =>
        if kind = .aggregateRoot then .ok (.entity info true none members)
        else (readSubPackage doc place).map fun sub => .entity info false sub members
  termination_by sizeOf doc + 1
  decreasing_by all_goals exact Nat.lt_succ_of_le (sizeOf_of_attributes? ‹_›)

/-- The children of a node from one of them on. -/
def readChildren (host : Host) (place : Place) (index : Nat) (docs : List Json) :
    Except Error (List Node) :=
  match docs with
  | [] => .ok []
  | doc :: r =>
    let here := place ++ [.child index]
    match readNode doc here with
    | .error e => .error e
    | .ok node =>
      match host.refusal node with
      | some cause => .error ⟨here, cause⟩
      | none => (readChildren host place (index + 1) r).map (node :: ·)
  termination_by sizeOf docs
  decreasing_by
    · simp only [List.cons.sizeOf_spec]
      have : 1 ≤ sizeOf r := by cases r <;> simp +arith
      omega
    · simp only [List.cons.sizeOf_spec]
      omega

end

/-- The tree of a document whose root is an object. -/
def Tree.ofDocument (doc : Json) : Except Error Tree :=
  match doc with
  | .object _ =>
    match readNode doc [] with
    | .error e => .error e
    | .ok (.entity info isRoot subPackage members) => .ok { info, isRoot, subPackage, members }
    | .ok (.value v) => .error ⟨[], .rootNotEntity v.kind⟩
  | _ => .error ⟨[], .rootNotObject⟩

/-- The tree of a document, which may be given as its JSON text. -/
def Tree.read (doc : Json) : Except Error Tree :=
  match doc with
  | .string s =>
    match Json.read s with
    | .error e => .error ⟨[], .notJson e⟩
    | .ok doc => Tree.ofDocument doc
  | doc => Tree.ofDocument doc

end DomainCodegen.Schema
