import DomainCodegen.Proofs.Schema.SourcePath

/-!
# Documents of well-formed trees

A tree is written as a document that has the first spelling of every key. A node that is well formed
at a place is read back from its document at that place (`Node.FormedAt.readNode_document`), so the
trees that reading gives are exactly the well-formed ones (`wellFormed_iff_read`).
-/

namespace DomainCodegen.Schema

variable {place : Place} {node : Node} {info : Info} {host : Host}

/-! ## Writing -/

/-- What every node is written with. -/
def Info.members (info : Info) (kind : Kind) : List (String × Json) :=
  [("name", .string info.name), ("type", .string kind.word),
    ("description", .string info.description), ("itemFormat", .string info.cardinality.word)]

def Variant.document (v : Variant) : Json :=
  .object [("englishName", .string v.constant), ("businessMeaning", .string v.meaning)]

mutual

def ValueObject.document : ValueObject → Json
  | .leaf info primitive =>
    .object (info.members .valueObject ++ [("realDataType", .string primitive.word)])
  | .composite info parts =>
    .object (info.members .valueObject ++ [("attributes", .array (documentsOfParts parts))])
  | .enumeration info variants =>
    .object (info.members .enumeration ++ [("enumData", .array (variants.map Variant.document))])

def documentsOfParts : List ValueObject → List Json
  | [] => []
  | v :: r => v.document :: documentsOfParts r

end

/-- The member for a sub-package, left out where there is none. -/
def subPackageMembers : Option String → List (String × Json)
  | some sub => [("subPackage", .string sub)]
  | none => []

mutual

def Node.document : Node → Json
  | .value v => v.document
  | .entity info isRoot sub members =>
    .object (info.members (if isRoot then .aggregateRoot else .simpleEntity) ++
      (subPackageMembers sub ++ [("attributes", .array (documentsOfMembers members))]))

def documentsOfMembers : List Node → List Json
  | [] => []
  | m :: r => m.document :: documentsOfMembers r

end

/-- The document of a tree. -/
def Tree.document (t : Tree) : Json := t.node.document

theorem documentsOfMembers_eq (members : List Node) :
    documentsOfMembers members = members.map Node.document := by
  induction members with
  | nil => rfl
  | cons m r ih => rw [documentsOfMembers, ih, List.map_cons]

theorem documentsOfParts_eq (parts : List ValueObject) :
    documentsOfParts parts = (parts.map Node.value).map Node.document := by
  induction parts with
  | nil => rfl
  | cons v r ih => rw [documentsOfParts, ih, List.map_cons, List.map_cons, Node.document]

/-! ## Words -/

theorem Kind.ofWord?_word (kind : Kind) : Kind.ofWord? kind.word = some kind := by
  cases kind <;> decide

theorem Cardinality.ofWord?_word (c : Cardinality) : Cardinality.ofWord? c.word = some c := by
  cases c <;> decide

theorem Primitive.ofWord?_word (p : Primitive) : Primitive.ofWord? p.word = some p := by
  cases p <;> decide

/-! ## Reading the head of a node -/

section Head

variable {kind : Kind} {rest : List (String × Json)}

theorem readName_members (h : info.FormedAt place) :
    readName (.object (info.members kind ++ rest)) place = .ok info.name := by
  have hget : (Json.object (info.members kind ++ rest)).get? "name" =
      some (.string info.name) := rfl
  unfold readName
  rw [hget]
  simp only [h.name_stripped, h.name_ne_empty, h.classAllowed, h.fieldAllowed, Bool.and_self,
    if_false, if_true]

theorem readKind_members :
    readKind (.object (info.members kind ++ rest)) place = .ok kind := by
  have hfirst : (Json.object (info.members kind ++ rest)).firstOf kindKeys =
      .string kind.word := rfl
  unfold readKind
  rw [hfirst]
  simp only [Kind.ofWord?_word, Option.elim_some]

theorem readDescription_members (h : info.FormedAt place) (name : String) :
    readDescription (.object (info.members kind ++ rest)) name place = .ok info.description := by
  have hget : (Json.object (info.members kind ++ rest)).get? "description" =
      some (.string info.description) := rfl
  unfold readDescription
  rw [hget]
  simp only [Option.getD_some, h.description_stripped, h.description_ne_empty, if_false]

theorem readCardinality_members :
    readCardinality (.object (info.members kind ++ rest)) place = .ok info.cardinality := by
  have hfirst : (Json.object (info.members kind ++ rest)).firstOf cardinalityKeys =
      .string info.cardinality.word := rfl
  unfold readCardinality
  rw [hfirst]
  simp only [Cardinality.ofWord?_word, Option.elim_some]

/-- The head of a document is read back, whatever members follow it. -/
theorem readHead_members (h : info.FormedAt place) :
    readHead (.object (info.members kind ++ rest)) place = .ok (kind, info) := by
  unfold readHead
  simp only [readName_members h, readKind_members, readDescription_members h,
    readCardinality_members, bind, Except.bind, pure, Except.pure]
  rw [← h.place_eq]

end Head

/-! ## Reading children -/

theorem readVariantsFrom_documents [Surrogates] {variants : List Variant} (index : Nat)
    (h : ∀ v ∈ variants, v.Stripped) :
    readVariantsFrom place index (variants.map Variant.document) = .ok variants := by
  induction variants generalizing index with
  | nil => rfl
  | cons v r ih =>
    obtain ⟨hv, hr⟩ := List.forall_mem_cons.mp h
    have hread : readVariant place index v.document = .ok v := by
      show Except.ok ⟨Text.stripped v.constant, Text.stripped v.meaning⟩ = Except.ok v
      rw [hv.constant, hv.meaning]
    rw [List.map_cons, readVariantsFrom, hread, ih (index + 1) hr]
    rfl

theorem readVariantData_documents [Surrogates] {variants : List Variant} (hne : variants ≠ [])
    (h : ∀ v ∈ variants, v.Stripped) :
    readVariantData place (.array (variants.map Variant.document)) = .ok variants := by
  obtain ⟨v, r, rfl⟩ := List.exists_cons_of_ne_nil hne
  exact readVariantsFrom_documents 0 h

/-- Children that are read from their documents, each at its own child of the place, and that the
host takes, are read from the list of their documents. -/
theorem readChildren_documents [Surrogates] {nodes : List Node} (index : Nat)
    (h : ∀ i node, nodes[i]? = some node →
      readNode node.document (place ++ [.child (index + i)]) = .ok node ∧
        host.refusal node = none) :
    readChildren host place index (nodes.map Node.document) = .ok nodes := by
  induction nodes generalizing index with
  | nil =>
    rw [List.map_nil, readChildren]
  | cons node r ih =>
    obtain ⟨hread, hrefusal⟩ := h 0 node rfl
    rw [Nat.add_zero] at hread
    have hrest := ih (index + 1) fun i m hm => by
      have hi := h (i + 1) m hm
      rwa [← Nat.add_assoc, Nat.add_right_comm] at hi
    rw [List.map_cons, readChildren]
    simp only [hread, hrefusal, hrest]
    rfl

theorem filterMap_value?_map (parts : List ValueObject) :
    (parts.map Node.value).filterMap Node.value? = parts := by
  rw [List.filterMap_map]
  exact List.filterMap_some

theorem makeValueObject_parts {parts : List ValueObject} (hne : parts ≠ []) :
    makeValueObject info none parts = .ok (.composite info parts) := by
  obtain ⟨v, r, rfl⟩ := List.exists_cons_of_ne_nil hne
  rfl

theorem refusal_eq_none_of_kind (h : node.kind ≠ .aggregateRoot) :
    Host.refusal .entity node = none := by
  cases node with
  | value v => rfl
  | entity info isRoot sub members =>
    cases isRoot
    · rfl
    · exact absurd rfl h

/-! ## Reading nodes -/

/-- A well-formed value object is read back from its document. -/
theorem ValueObject.FormedAt.readNode_document [Surrogates] {v : ValueObject}
    (h : v.FormedAt place) :
    readNode v.document place = .ok (.value v) := by
  induction h with
  | @leaf place info hi primitive =>
    have hprimitive : readPrimitive (ValueObject.document (.leaf info primitive)) place =
        .ok (some primitive) := by
      show Option.elim (Primitive.ofWord? primitive.word) _ _ = _
      rw [Primitive.ofWord?_word]
      rfl
    have hdocs : attributes? (ValueObject.document (.leaf info primitive)) = some [] := rfl
    have hchildren : readChildren .valueObject place 0 [] = .ok [] := by rw [readChildren]
    rw [ValueObject.document] at hprimitive hdocs ⊢
    rw [readNode_of_valueObject (readHead_members hi) hprimitive hdocs hchildren]
    rfl
  | @composite place info parts hi hne _ ih =>
    have hprimitive : readPrimitive (ValueObject.document (.composite info parts)) place =
        .ok none := rfl
    have hdocs : attributes? (ValueObject.document (.composite info parts)) =
        some (documentsOfParts parts) := rfl
    have hchildren : readChildren .valueObject place 0 (documentsOfParts parts) =
        .ok (parts.map .value) := by
      rw [documentsOfParts_eq]
      refine readChildren_documents 0 fun i node hn => ?_
      rw [List.getElem?_map, Option.map_eq_some_iff] at hn
      obtain ⟨part, hp, rfl⟩ := hn
      rw [Nat.zero_add, Node.document]
      exact ⟨ih i part hp, rfl⟩
    rw [ValueObject.document] at hprimitive hdocs ⊢
    rw [readNode_of_valueObject (readHead_members hi) hprimitive hdocs hchildren,
      filterMap_value?_map, makeValueObject_parts hne]
    rfl
  | @enumeration place info variants hi hne hvariants =>
    have hread : readVariants (ValueObject.document (.enumeration info variants)) place =
        readVariantData place (.array (variants.map Variant.document)) := rfl
    rw [ValueObject.document] at hread ⊢
    rw [readNode]
    simp only [readHead_members hi, hread, readVariantData_documents hne hvariants]
    rfl

/-- A well-formed node is read back from its document. -/
theorem Node.FormedAt.readNode_document [Surrogates] (h : node.FormedAt place) :
    readNode node.document place = .ok node := by
  induction h with
  | value hv =>
    rw [Node.document]
    exact hv.readNode_document
  | @entity place info isRoot sub members hi hsub hroot _ ih =>
    have hmembers : readChildren .entity place 0 (documentsOfMembers members) = .ok members := by
      rw [documentsOfMembers_eq]
      refine readChildren_documents 0 fun i node hn => ⟨?_, ?_⟩
      · rw [Nat.zero_add]
        exact ih i node hn
      · exact refusal_eq_none_of_kind (hroot node (List.mem_of_getElem? hn))
    have hdocs : attributes? (Node.document (.entity info isRoot sub members)) =
        some (documentsOfMembers members) := by
      cases sub <;> rfl
    have hsubPackage : readSubPackage (Node.document (.entity info isRoot sub members)) place =
        .ok sub := by
      cases sub with
      | none => rfl
      | some s =>
        show (if PackageName.isValid s then _ else _) = _
        rw [if_pos (hsub s rfl).2]
    rw [Node.document] at hdocs hsubPackage ⊢
    cases isRoot with
    | true =>
      have hnone : sub = none := by
        cases sub with
        | none => rfl
        | some s => cases (hsub s rfl).1
      rw [if_pos rfl] at hdocs ⊢
      rw [readNode_of_aggregateRoot (readHead_members hi) hdocs hmembers, hnone]
    | false =>
      rw [if_neg Bool.false_ne_true] at hdocs hsubPackage ⊢
      rw [readNode_of_simpleEntity (readHead_members hi) hdocs hmembers, hsubPackage]
      rfl

/-- A well-formed tree is read back from its document. -/
theorem Tree.WellFormed.read_document [Surrogates] {tree : Tree} (h : tree.WellFormed) :
    Tree.read tree.document = .ok tree := by
  have hnode : readNode tree.document [] = .ok tree.node := h.readNode_document
  rw [Tree.document, Tree.node, Node.document] at hnode ⊢
  show Tree.ofDocument (.object _) = .ok tree
  rw [Tree.ofDocument, hnode]

/-- The trees that reading gives are exactly the well-formed trees. Each of them is read from its
document, and its nodes have different source paths. -/
theorem wellFormed_iff_read [Surrogates] (tree : Tree) :
    (tree.WellFormed ↔ ∃ doc, Tree.read doc = .ok tree) ∧
      (tree.WellFormed ↔ Tree.read tree.document = .ok tree) ∧
      (tree.WellFormed → tree.sourcePaths.Nodup) := by
  refine ⟨⟨fun h => ⟨_, h.read_document⟩, ?_⟩, ⟨?_, wellFormed_of_read⟩, ?_⟩
  · rintro ⟨doc, h⟩
    exact wellFormed_of_read h
  · exact Tree.WellFormed.read_document
  · exact Tree.WellFormed.nodup_sourcePaths

/-- An enumeration whose second variant has no meaning, which reading does not look for. -/
def currency : ValueObject :=
  .enumeration ⟨"currency", "a unit", .single, [.child 1, .child 1]⟩
    [⟨"CNY", "yuan"⟩, ⟨"not a name", ""⟩]

/-- A root that holds an entity with a sub-package and a value object of two parts, one of which is
an enumeration. -/
def nested : Tree where
  info := ⟨"order", "an order", .single, []⟩
  isRoot := true
  subPackage := none
  members :=
    [.entity ⟨"orderItem", "an item", .multi, [.child 0]⟩ false (some "item") [],
      .value (.composite ⟨"total_amount", "what is due", .single, [.child 1]⟩
        [.leaf ⟨"value", "a sum", .single, [.child 1, .child 0]⟩ .decimal, currency])]

theorem wellFormed_nested : nested.WellFormed := by
  have hroot : nested.info.FormedAt [] := by decide
  have hitem : Node.FormedAt [.child 0]
      (.entity ⟨"orderItem", "an item", .multi, [.child 0]⟩ false (some "item") []) :=
    .entity (by decide) (by decide) nofun nofun
  have hvalue : ValueObject.FormedAt [.child 1, .child 0]
      (.leaf ⟨"value", "a sum", .single, [.child 1, .child 0]⟩ .decimal) :=
    .leaf (by decide) _
  have hcurrency : currency.FormedAt [.child 1, .child 1] :=
    .enumeration (by decide) (by decide) (by decide)
  refine Node.FormedAt.entity hroot nofun (by decide) fun i m hm => ?_
  match i, hm with
  | 0, rfl => exact hitem
  | 1, rfl =>
    refine .value (.composite (by decide) nofun fun j part hp => ?_)
    match j, hp with
    | 0, rfl => exact hvalue
    | 1, rfl => exact hcurrency

open scoped Surrogates in
/-- The nested tree is read from its document, and its five source paths are different. -/
theorem read_document_nested :
    Tree.read nested.document = .ok nested ∧ nested.sourcePaths.Nodup :=
  ⟨(wellFormed_iff_read nested).2.1.mp wellFormed_nested,
    (wellFormed_iff_read nested).2.2 wellFormed_nested⟩

end DomainCodegen.Schema
