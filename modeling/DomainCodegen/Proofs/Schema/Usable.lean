import DomainCodegen.Proofs.Schema.Formed

/-!
# What reading a schema guarantees

Every node of a tree that was read has a name that gives a class and a field, and every entity in it
has a sub-package that is a package name, or none (`usable_of_read`).
-/

namespace DomainCodegen.Schema

variable {doc : Json} {place : Place} {node : Node} {info : Info}

/-! ## Usable trees -/

/-- A name that Java allows as a class name and, in its other form, as a field name. -/
structure Info.Usable (info : Info) : Prop where
  classAllowed : Name.isIdentifier (Name.className info.name) = true
  fieldAllowed : Name.isIdentifier (Name.fieldName info.name) = true

inductive ValueObject.Usable : ValueObject → Prop
  | leaf {info : Info} (h : info.Usable) (primitive : Primitive) : Usable (.leaf info primitive)
  | composite {info : Info} (h : info.Usable) {parts : List ValueObject}
    (hparts : ∀ part ∈ parts, part.Usable) : Usable (.composite info parts)
  | enumeration {info : Info} (h : info.Usable) (variants : List Variant) :
    Usable (.enumeration info variants)

inductive Node.Usable : Node → Prop
  | value {v : ValueObject} (h : v.Usable) : Usable (.value v)
  | entity {info : Info} (h : info.Usable) (isRoot : Bool) {sub : Option String}
    (hsub : ∀ s ∈ sub, PackageName.isValid s = true) {members : List Node}
    (hmembers : ∀ m ∈ members, m.Usable) : Usable (.entity info isRoot sub members)

theorem ValueObject.Usable.head {v : ValueObject} (h : v.Usable) : v.info.Usable := by
  cases h <;> assumption

theorem Node.Usable.head (h : node.Usable) : node.info.Usable := by
  cases h with
  | value hv => exact hv.head
  | entity hi => exact hi

/-! ## Reading -/

theorem Info.FormedAt.usable (h : info.FormedAt place) : info.Usable :=
  ⟨h.classAllowed, h.fieldAllowed⟩

theorem ValueObject.FormedAt.usable {v : ValueObject} (h : v.FormedAt place) : v.Usable := by
  induction h with
  | leaf hi primitive => exact .leaf hi.usable primitive
  | composite hi _ _ ih =>
    refine .composite hi.usable fun part hp => ?_
    obtain ⟨i, hget⟩ := List.mem_iff_getElem?.mp hp
    exact ih i part hget
  | enumeration hi _ _ => exact .enumeration hi.usable _

theorem Node.FormedAt.usable (h : node.FormedAt place) : node.Usable := by
  induction h with
  | value hv => exact .value hv.usable
  | entity hi hsub _ _ ih =>
    refine .entity hi.usable _ (fun s hs => (hsub s hs).2) fun m hm => ?_
    obtain ⟨i, hget⟩ := List.mem_iff_getElem?.mp hm
    exact ih i m hget

/-- A tree that was read is usable throughout. -/
theorem usable_of_read [Surrogates] {tree : Tree} (h : Tree.read doc = .ok tree) :
    tree.node.Usable :=
  (wellFormed_of_read h).usable

/-! ## An example -/

def samplePart : Json :=
  .object [("name", .string "orderEntity"), ("type", .string "ValueObject"),
    ("realDataType", .string "STRING")]

/-- An entity with a value object whose class has the name of the class of the entity. -/
def sample : Json :=
  .object [("name", .string "order"), ("type", .string "SimpleEntity"),
    ("attributes", .array [samplePart])]

def sampleTree : Tree where
  info := ⟨"order", "order领域模型", .single, []⟩
  isRoot := false
  subPackage := none
  members := [.value (.leaf ⟨"orderEntity", "orderEntity领域模型", .single, [.child 0]⟩ .string)]

theorem readNode_samplePart [Surrogates] (place : Place) :
    readNode samplePart place =
      .ok (.value (.leaf ⟨"orderEntity", "orderEntity领域模型", .single, place⟩ .string)) := by
  have hhead : readHead samplePart place =
      .ok (.valueObject, ⟨"orderEntity", "orderEntity领域模型", .single, place⟩) := rfl
  have hprimitive : readPrimitive samplePart place = .ok (some .string) := rfl
  have hdocs : attributes? samplePart = some [] := rfl
  have hchildren : readChildren .valueObject place 0 [] = .ok [] := by rw [readChildren]
  rw [readNode_of_valueObject hhead hprimitive hdocs hchildren]
  rfl

open scoped Surrogates in
theorem read_sample : Tree.read sample = .ok sampleTree := by
  have hhead : readHead sample [] =
      .ok (.simpleEntity, ⟨"order", "order领域模型", .single, []⟩) := rfl
  have hdocs : attributes? sample = some [samplePart] := rfl
  have hmembers : readChildren .entity [] 0 [samplePart] = .ok sampleTree.members := by
    rw [readChildren, readNode_samplePart]
    simp only [Host.refusal]
    rw [readChildren]
    rfl
  have hnode : readNode sample [] = .ok sampleTree.node :=
    readNode_of_simpleEntity hhead hdocs hmembers
  have hread : Tree.read sample = Tree.ofDocument sample := rfl
  rw [hread]
  unfold Tree.ofDocument
  rw [hnode]
  rfl

end DomainCodegen.Schema
