import DomainCodegen.Java.Render

/-!
# Drafts of artifacts

A draft is an artifact that is handed in ready made, so that any of its names can be missing. It
renders as the artifact with empty names in their place does, except that a missing name is not
blamed for being empty.
-/

namespace DomainCodegen.Artifact

structure Draft.Field where
  name : Option String
  type : TypeRef
  role : Role := .declared
  description : String := ""

structure Draft where
  package : String
  className : Option String
  kind : Kind
  description : String := ""
  fields : List Draft.Field := []
  idClass : Option String := none
  /-- The constants of an enumeration with their meanings. -/
  variants : List (Option String × String) := []

namespace Draft

def Field.filled (f : Draft.Field) : Artifact.Field :=
  { name := f.name.getD "", type := f.type, role := f.role, description := f.description }

/-- A draft with empty texts for its missing names. -/
def filled (d : Draft) : Artifact :=
  { package := d.package
    className := d.className.getD ""
    kind := d.kind
    description := d.description
    fields := d.fields.map Field.filled
    idClass := d.idClass
    variants := d.variants.map fun v => ⟨v.1.getD "", v.2⟩ }

/-- How messages and file names show the class. -/
def shownClass (d : Draft) : String := d.className.getD "None"

/-- Whether the name that a cause blames is missing. -/
def isMissing (d : Draft) : RenderCause → Bool
  | .classNameInvalid _ => d.className.isNone
  | .fieldNameInvalid index _ => d.fields[index]?.any fun f => f.name.isNone
  | .constantInvalid index _ => d.variants[index]?.any fun v => v.1.isNone
  | _ => false

def render (config : Config) (d : Draft) : Except RenderError String :=
  (d.filled.render config).mapError fun e =>
    if d.isMissing e.cause then ⟨d.shownClass, .nameMissing⟩ else e

end Draft

end DomainCodegen.Artifact
