import DomainCodegen.Proofs.Artifact.Imports
import DomainCodegen.Proofs.Java.TypeNames
import DomainCodegen.Proofs.Lists
import Mathlib.Data.List.Sort
import Mathlib.Data.String.Basic

/-!
# Type names and imports of generated files

What a file imports is computed apart from its text. Still each type name that the text uses stands
for a class of `java.lang`, for a class that is generated into the same package, or for an import,
and the text uses what the file imports, which is listed in order and without doubles
(`typeNames_resolve`).
-/

namespace DomainCodegen

open Java

variable {config : Config} {package q : String}

theorem Java.IsName.dot_notMem {s : String} (h : IsName s) : '.' ∉ s.toList := by
  intro hm
  have hpart := h.parts _ hm
  revert hpart
  decide

namespace Artifact

variable {a b : Artifact} {artifacts : List Artifact} {f : Field} {file : File}
  {imports names : List String} {n : String}

/-! ## Resolving -/

/-- The classes of `java.lang` that files use. -/
def languageClasses : List String := ["Boolean", "Integer", "Long", "Override", "String"]

/-- A simple name stands for a class that can be used without an import, or for an import. -/
def Resolves (artifacts : List Artifact) (a : Artifact) (imports : List String) (n : String) :
    Prop :=
  n ∈ languageClasses ∨ (∃ b ∈ artifacts, b.package = a.package ∧ b.className = n) ∨
    n ∈ imports.map Name.simpleName

/-- The type names of a file all resolve, and they account for its imports and for the types of the
fields. -/
structure Accounted (artifacts : List Artifact) (a : Artifact) (imports names : List String) :
    Prop where
  resolve : ∀ n ∈ names, Resolves artifacts a imports n
  imports : ∀ q ∈ imports, Name.simpleName q ∈ names
  fields : ∀ f ∈ a.fields, f.type.use.name ∈ names

/-- An artifact among those that are generated with it. -/
structure Belongs (artifacts : List Artifact) (a : Artifact) : Prop where
  mem : a ∈ artifacts
  spelled : a.Spelled
  named : ∀ f ∈ a.fields, f.type.primitive = none → ∃ b ∈ artifacts, f.type.Names b
  small : ∀ f ∈ a.fields, Name.StartsSmall f.name
  classes : a.kind.isEntity = true → ∀ f ∈ a.fields, f.type.primitive = none
  idClass : ∀ c ∈ a.idClass, ∃ f ∈ a.fields, f.type.className = some c

theorem resolves_import {q : String} (h : q ∈ imports) (hq : Name.simpleName q = n) :
    Resolves artifacts a imports n :=
  .inr (.inr (hq ▸ List.mem_map_of_mem h))

/-- A file lists its imports in order and each once, which changes none of them. -/
theorem Accounted.fileOf {d : Declaration} (h : Accounted artifacts a imports names) :
    Accounted artifacts a (a.fileOf config imports d).imports names where
  resolve n hn := (h.resolve n hn).imp_right fun hn => hn.imp_right fun hn => by
    obtain ⟨q, hq, rfl⟩ := List.mem_map.mp hn
    exact List.mem_map_of_mem (mem_imports_fileOf.mpr hq)
  imports q hq := h.imports q (mem_imports_fileOf.mp hq)
  fields := h.fields

/-- The class of a field that is no primitive. -/
theorem Field.Spelled.use_name (h : f.Spelled q) (hn : f.type.Names b) :
    f.type.use.name = b.className := by
  obtain ⟨hprimitive, -, hclass⟩ := hn
  have hne := (h.className _ hclass).ne_empty
  rw [TypeRef.use, hprimitive, hclass, present_of_ne hne]
  rfl

/-! ### Fields -/

theorem simpleName_primitiveImport {p : Schema.Primitive} {q : String}
    (h : primitiveImport p = some q) : Name.simpleName q = primitiveClass p := by
  cases p <;> cases h <;> decide

theorem mem_fieldImports_primitive {p : Schema.Primitive} {q : String} (hf : f ∈ a.fields)
    (hp : f.type.primitive = some p) (hq : primitiveImport p = some q) : q ∈ a.fieldImports := by
  refine List.mem_flatMap.mpr ⟨f, hf, List.mem_append_right _ ?_⟩
  rw [hp]
  exact Option.mem_toList.mpr hq

/-- The type of a field resolves if the file imports what the fields ask for. -/
theorem Belongs.resolves_use (h : a.Belongs artifacts) (hf : f ∈ a.fields)
    (himports : a.fieldImports ⊆ imports) : Resolves artifacts a imports f.type.use.name := by
  cases hp : f.type.primitive with
  | some p =>
    have huse : f.type.use.name = primitiveClass p := by rw [TypeRef.use, hp]
    rw [huse]
    cases p with
    | decimal | dateTime =>
      exact resolves_import (himports (mem_fieldImports_primitive hf hp rfl)) (by decide)
    | string | integer | boolean | long => exact .inl (by decide)
  | none =>
    obtain ⟨b, hb, hnames⟩ := h.named f hf hp
    have hspelled := h.spelled.fields f hf
    rw [hspelled.use_name hnames]
    by_cases hhome : b.package = a.package
    · exact .inr (.inl ⟨b, hb, hhome, rfl⟩)
    · have hclass := hspelled.className _ hnames.2.2
      obtain ⟨rest, hrest, -⟩ := hspelled.package _ hnames.2.1
      have hpackage : b.package ≠ "" := by
        intro hempty
        rw [hempty, eq_comm, String.append_eq_empty_iff] at hrest
        exact hhome (hempty.trans hrest.1.symm)
      exact resolves_import
        (himports (mem_fieldImports hf hnames hclass.ne_empty hpackage hhome))
        (Name.simpleName_qualified hclass.dot_notMem)

theorem resolves_list (hf : f ∈ a.fields) (hc : f.type.collection = true)
    (himports : a.fieldImports ⊆ imports) : Resolves artifacts a imports "List" := by
  refine resolves_import (himports (List.mem_flatMap.mpr ⟨f, hf, List.mem_append_left _ ?_⟩))
    (by decide : Name.simpleName "java.util.List" = "List")
  rw [if_pos hc]
  exact List.mem_singleton_self _

theorem Belongs.forall_uses (h : a.Belongs artifacts) (hf : f ∈ a.fields)
    (himports : a.fieldImports ⊆ imports) (us : List Use) :
    ∀ use ∈ f.member.uses, use.Meets (Resolves artifacts a imports) us := by
  have huse := h.resolves_use hf himports
  show ∀ use ∈ (if f.type.collection then _ else _) ++ _, _
  split
  · next hc =>
    simp only [List.cons_append, List.nil_append, List.forall_mem_cons]
    exact ⟨resolves_list hf hc himports, huse, trivial, List.forall_mem_nil _⟩
  · simp only [List.cons_append, List.nil_append, List.forall_mem_cons]
    exact ⟨huse, trivial, List.forall_mem_nil _⟩

theorem type_mem_uses (f : Field) : Use.type f.type.use.name ∈ f.member.uses := by
  show _ ∈ (if f.type.collection then _ else _) ++ _
  split <;> simp [Field.member]

/-- What the fields ask for is used where they are declared. -/
theorem Belongs.fieldImports_used (h : a.Belongs artifacts) :
    ∀ q ∈ a.fieldImports, ∃ f ∈ a.fields, .type (Name.simpleName q) ∈ f.member.uses := by
  intro q hq
  obtain ⟨f, hf, hq⟩ := List.mem_flatMap.mp hq
  refine ⟨f, hf, ?_⟩
  have huse := type_mem_uses f
  rcases List.mem_append.mp hq with hq | hq
  · split at hq
    · next hc =>
      obtain rfl := List.mem_singleton.mp hq
      show _ ∈ (if f.type.collection then _ else _) ++ _
      rw [if_pos hc, show Name.simpleName "java.util.List" = "List" by decide]
      exact List.mem_cons_self
    · cases hq
  split at hq
  · next p hp =>
    rw [TypeRef.use, hp] at huse
    rwa [simpleName_primitiveImport (Option.mem_toList.mp hq)]
  · next hp =>
    rw [Option.mem_toList, TypeRef.classImport] at hq
    split at hq
    · next className home hc hh =>
      split at hq
      · cases hq
      · cases hq
        have hname := (h.spelled.fields f hf).className _ (mem_of_present hc)
        rw [TypeRef.use, hp, hc] at huse
        rwa [Name.simpleName_qualified hname.dot_notMem]
    · cases hq

/-! ### Settings -/

theorem simpleClass_emptyCheck : simpleClass ({} : Config).emptyCheckClass = "ZzKits" :=
  Name.simpleName_lit (by decide)

theorem simpleClass_resultCode : simpleClass ({} : Config).resultCodeClass = "ResultCode" :=
  Name.simpleName_lit (by decide)

theorem reads_serialExpression : Reads .free (textTokens ({} : Config).serialExpression)
    [.root "SerialNoGeneratorTemplate"] .free := .lit rfl

theorem reads_emptyCheck : Reads .free (textTokens (simpleClass ({} : Config).emptyCheckClass ++
    "." ++ ({} : Config).emptyCheckMethod)) [.root "ZzKits"] .free := by
  rw [← simpleClass_emptyCheck]
  exact reads_selection (isName_simpleClass _ (by simp [importedClasses, valueClasses])) (.lit rfl)

theorem reads_resultCode : Reads .free (textTokens (simpleClass ({} : Config).resultCodeClass ++
    "." ++ ({} : Config).resultCodeConstant)) [.root "ResultCode"] .free := by
  rw [← simpleClass_resultCode]
  exact reads_selection (isName_simpleClass _ (by simp [importedClasses, valueClasses])) (.lit rfl)

theorem DeclaredAs.settled {d : Declaration} (hd : a.DeclaredAs {} d) : d.Settled := by
  cases hd with
  | entity => exact reads_serialExpression.settled
  | value hk =>
    exact ⟨reads_emptyCheck.settled, isName_simpleClass _ (by simp [importedClasses, valueClasses]),
      reads_resultCode.settled⟩
  | enumeration => trivial

/-! ### Uses -/

theorem bound_mem_uses : Use.bound n ∈ f.member.uses ↔ n = f.name := by
  show _ ∈ (if f.type.collection then _ else _) ++ _ ↔ _
  split <;> simp [Field.member]

theorem used_as_type {us : List Use} (h : .type n ∈ us) : n ∈ typesIn us := mem_typesIn.mpr (.inl h)

/-- What is declared starts small, so it hides no class. -/
theorem used_as_root {us : List Use} (h : .root n ∈ us)
    (hsmall : ∀ s, .bound s ∈ us → Name.StartsSmall s) (hn : ¬ Name.StartsSmall n) :
    n ∈ typesIn us :=
  mem_typesIn.mpr (.inr ⟨h, fun hb => hn (hsmall n hb)⟩)

/-! ### Enumerations -/

theorem Belongs.resolves_self (h : a.Belongs artifacts) :
    Resolves artifacts a imports a.className :=
  .inr (.inl ⟨a, h.mem, rfl, rfl⟩)

theorem Belongs.accounted_enumeration (h : a.Belongs artifacts) (hk : a.kind = .enumeration) :
    Accounted artifacts a ["lombok.Getter", ({} : Config).valueInterface.text]
      (typesIn (a.enumDeclaration {}).uses) := by
  have hgetter : Name.simpleName "lombok.Getter" = "Getter" := Name.simpleName_lit (by decide)
  refine ⟨forall_mem_typesIn fun all hall => ?_, ?_, fun f hf => ?_⟩
  · simp only [EnumClass.uses, List.forall_mem_cons]
    exact ⟨resolves_import List.mem_cons_self hgetter, h.resolves_self,
      resolves_import (List.mem_cons_of_mem _ List.mem_cons_self) rfl, h.resolves_self,
      .inl (by decide), trivial, .inl (by decide), trivial, .inl (by decide), h.resolves_self,
      trivial, .inl (hall (by simp [EnumClass.uses])), List.forall_mem_nil _⟩
  · simp only [List.forall_mem_cons, hgetter]
    exact ⟨used_as_type (by simp [EnumClass.uses]),
      used_as_type (by simp [EnumClass.uses, enumDeclaration, simpleClass]), List.forall_mem_nil _⟩
  · have hmem := List.mem_map_of_mem (f := fun f => (f.type.use, f.name)) hf
    rw [h.spelled.meaning hk, List.mem_singleton] at hmem
    rw [(Prod.mk.inj hmem).1]
    exact used_as_type (by simp [EnumClass.uses])

/-! ### Entities -/

section Entity

variable {idClass : String} {serial : Field} (h : a.Belongs artifacts)
  (hk : a.kind.isEntity = true) (hid : present a.idClass = some idClass)
  (hserial : serial ∈ a.fields)

include h hk hid in
theorem Belongs.resolves_idClass (himports : a.fieldImports ⊆ imports) :
    Resolves artifacts a imports idClass := by
  obtain ⟨f, hf, hclass⟩ := h.idClass idClass (mem_of_present hid)
  have huse : f.type.use.name = idClass := by
    rw [TypeRef.use, h.classes hk f hf, hclass, ← mem_of_present hid, hid]
    rfl
  exact huse ▸ h.resolves_use hf himports

include h hk hserial in
theorem Belongs.resolves_serialClass (himports : a.fieldImports ⊆ imports) :
    Resolves artifacts a imports (serial.type.className.getD "None") := by
  obtain ⟨b, -, hnames⟩ := h.named serial hserial (h.classes hk serial hserial)
  have huse : serial.type.use.name = serial.type.className.getD "None" := by
    rw [(h.spelled.fields serial hserial).use_name hnames, hnames.2.2]
    rfl
  exact huse ▸ h.resolves_use hserial himports

theorem member_uses_subset (hf : f ∈ a.fields) :
    f.member.uses ⊆ (a.entityDeclaration {} idClass serial).uses := by
  have hmembers : f.member.uses ⊆ (a.fields.map Field.member).flatMap Member.uses :=
    fun use hm => List.mem_flatMap.mpr ⟨_, List.mem_map_of_mem hf, hm⟩
  intro use hm
  simp only [EntityClass.uses, List.mem_append]
  exact .inl (.inl (.inr (hmembers hm)))

include h in
/-- An entity declares nothing but its fields. -/
theorem Belongs.small_entity {s : String}
    (hs : .bound s ∈ (a.entityDeclaration {} idClass serial).uses) : Name.StartsSmall s := by
  have hmember : ∃ f ∈ a.fields, s = f.name := by
    simpa [EntityClass.uses, entityDeclaration, reads_serialExpression.usesIn_eq,
      bound_mem_uses] using hs
  obtain ⟨f, hf, rfl⟩ := hmember
  exact h.small f hf

/-- The libraries that every entity imports, besides the one of its base class. -/
def entityLibraries : List String :=
  ["lombok.AccessLevel", "lombok.EqualsAndHashCode", "lombok.Getter", "lombok.Setter",
    "lombok.experimental.SuperBuilder", ({} : Config).serialGenerator.text]

theorem simpleName_entityLibraries : entityLibraries.map Name.simpleName =
    ["AccessLevel", "EqualsAndHashCode", "Getter", "Setter", "SuperBuilder",
      "SerialNoGeneratorTemplate"] := by
  simp only [entityLibraries, List.map_cons, List.map_nil, List.cons.injEq, and_true]
  and_intros <;> exact Name.simpleName_lit (by decide)

theorem simpleName_arrayList : Name.simpleName "java.util.ArrayList" = "ArrayList" :=
  Name.simpleName_lit (by decide)

theorem mem_entityImports {q : String} : q ∈ a.entityImports {} ↔
    q ∈ entityLibraries ∨ q = (a.baseClass {}).text ∨ q ∈ a.fieldImports ∨
      q = "java.util.ArrayList" ∧ ∃ f ∈ a.fields, f.type.collection = true := by
  have hlists : q ∈ (if a.fields.any fun f => f.type.collection then ["java.util.ArrayList"]
      else []) ↔ q = "java.util.ArrayList" ∧ ∃ f ∈ a.fields, f.type.collection = true := by
    rw [← List.any_eq_true, List.mem_ite_nil_right, List.mem_singleton, and_comm]
  have hfixed : q ∈ ["lombok.AccessLevel", "lombok.EqualsAndHashCode", "lombok.Getter",
      "lombok.Setter", "lombok.experimental.SuperBuilder", (a.baseClass {}).text,
      ({} : Config).serialGenerator.text] ↔ q ∈ entityLibraries ∨ q = (a.baseClass {}).text := by
    simp only [entityLibraries, List.mem_cons, List.not_mem_nil, or_false, or_assoc]
    rw [or_comm (a := q = (a.baseClass {}).text)]
  rw [entityImports, List.mem_append, List.mem_append, hlists, hfixed, or_assoc, or_assoc]

include h hk hid hserial in
theorem Belongs.resolve_entity : ∀ n ∈ typesIn (a.entityDeclaration {} idClass serial).uses,
    Resolves artifacts a (a.entityImports {}) n := by
  have hlibrary : ∀ n ∈ entityLibraries.map Name.simpleName,
      Resolves artifacts a (a.entityImports {}) n :=
    List.forall_mem_map.mpr fun q hq => resolves_import (mem_entityImports.mpr (.inl hq)) rfl
  have hfields : a.fieldImports ⊆ a.entityImports {} :=
    fun q hq => mem_entityImports.mpr (.inr (.inr (.inl hq)))
  rw [simpleName_entityLibraries] at hlibrary
  refine forall_mem_typesIn fun all _ => ?_
  simp only [EntityClass.uses, entityDeclaration, reads_serialExpression.usesIn_eq,
    List.forall_mem_append, List.forall_mem_cons, List.forall_mem_flatMap, List.forall_mem_map]
  refine ⟨⟨⟨⟨hlibrary _ (by simp), hlibrary _ (by simp), hlibrary _ (by simp),
    .inr (hlibrary _ (by simp)), hlibrary _ (by simp), h.resolves_self,
    resolves_import (mem_entityImports.mpr (.inr (.inl rfl))) rfl,
    h.resolves_idClass hk hid hfields, List.forall_mem_nil _⟩,
    fun f hf => h.forall_uses hf hfields all⟩, .inl (by decide),
    h.resolves_serialClass hk hserial hfields, .inr (hlibrary _ (by simp)),
    List.forall_mem_nil _⟩, fun m hm => ⟨?_, List.forall_mem_nil _⟩⟩
  obtain ⟨hm, hlist⟩ := List.mem_filter.mp hm
  obtain ⟨f, hf, rfl⟩ := List.mem_map.mp hm
  exact resolves_import (mem_entityImports.mpr (.inr (.inr (.inr ⟨rfl, f, hf, hlist⟩))))
    simpleName_arrayList

include h in
theorem Belongs.used_entity : ∀ q ∈ a.entityImports {},
    Name.simpleName q ∈ typesIn (a.entityDeclaration {} idClass serial).uses := by
  have hsmall : ∀ s, .bound s ∈ (a.entityDeclaration {} idClass serial).uses →
      Name.StartsSmall s := fun s => h.small_entity
  have hlibrary : ∀ n ∈ entityLibraries.map Name.simpleName,
      n ∈ typesIn (a.entityDeclaration {} idClass serial).uses := by
    simp only [simpleName_entityLibraries, List.forall_mem_cons]
    refine ⟨used_as_root (by simp [EntityClass.uses]) hsmall (by decide),
      used_as_type (by simp [EntityClass.uses]), used_as_type (by simp [EntityClass.uses]),
      used_as_type (by simp [EntityClass.uses]), used_as_type (by simp [EntityClass.uses]),
      used_as_root ?_ hsmall (by decide), List.forall_mem_nil _⟩
    simp [EntityClass.uses, entityDeclaration, reads_serialExpression.usesIn_eq]
  intro q hq
  rcases mem_entityImports.mp hq with hq | rfl | hq | ⟨rfl, f, hf, hc⟩
  · exact hlibrary _ (List.mem_map_of_mem hq)
  · exact used_as_type (by simp [EntityClass.uses, entityDeclaration, simpleClass])
  · obtain ⟨f, hf, huse⟩ := h.fieldImports_used q hq
    exact used_as_type (member_uses_subset hf huse)
  · have hlist : f.member ∈ (a.fields.map Field.member).filter fun m => m.type.list :=
      List.mem_filter.mpr ⟨List.mem_map_of_mem hf, hc⟩
    rw [simpleName_arrayList]
    exact used_as_type (List.mem_append_right _
      (List.mem_flatMap.mpr ⟨_, hlist, List.mem_singleton_self _⟩))

include h hk hid hserial in
theorem Belongs.accounted_entity : Accounted artifacts a (a.entityImports {})
    (typesIn (a.entityDeclaration {} idClass serial).uses) where
  resolve := h.resolve_entity hk hid hserial
  imports := h.used_entity
  fields f hf := used_as_type (member_uses_subset hf (type_mem_uses f))

end Entity

/-! ### Value objects -/

section Value

variable (h : a.Belongs artifacts)

theorem member_uses_subset_value (hf : f ∈ a.fields) :
    f.member.uses ⊆ (a.valueDeclaration {}).uses := by
  have hmembers : f.member.uses ⊆
      ((a.fields.map Field.valueMember).map Prod.fst).flatMap Member.uses :=
    fun use hm => List.mem_flatMap.mpr
      ⟨f.valueMember.1, List.mem_map_of_mem (List.mem_map_of_mem hf), hm⟩
  intro use hm
  simp only [ValueClass.uses, List.mem_append]
  exact .inl (.inl (.inl (.inl (.inr (hmembers hm)))))

include h in
/-- A value object declares its fields and the argument of its comparison. -/
theorem Belongs.small_value {s : String} (hs : .bound s ∈ (a.valueDeclaration {}).uses) :
    Name.StartsSmall s := by
  have hassign : ∀ f : Field, .bound s ∉ assignmentUses f.valueMember.1 := by
    intro f
    unfold assignmentUses
    split <;> simp
  have hcompare : ∀ f : Field, .bound s ∉ comparisonUses f.valueMember := by
    intro f
    show _ ∉ comparisonUses (_, f.comparison)
    cases f.comparison <;> simp [comparisonUses]
  have hdeclared : (∃ f ∈ a.fields, .bound s ∈ f.valueMember.1.uses) ∨ s = "other" := by
    simpa [ValueClass.uses, valueDeclaration, reads_emptyCheck.usesIn_eq,
      reads_resultCode.usesIn_eq, hassign, hcompare] using hs
  rcases hdeclared with ⟨f, hf, hs⟩ | rfl
  · exact bound_mem_uses.mp hs ▸ h.small f hf
  · decide

/-- The libraries that every value object imports. -/
def valueLibraries : List String :=
  ["lombok.EqualsAndHashCode", "lombok.Getter"] ++ (valueClasses {}).map ClassSetting.text

theorem simpleName_valueLibraries : valueLibraries.map Name.simpleName =
    ["EqualsAndHashCode", "Getter", simpleClass ({} : Config).valueInterface, "ZzKits",
      simpleClass ({} : Config).exceptionClass, "ResultCode"] := by
  rw [← simpleClass_emptyCheck, ← simpleClass_resultCode]
  simp only [valueLibraries, valueClasses, List.map_cons, List.map_nil, List.cons_append,
    List.nil_append, List.cons.injEq, and_true]
  exact ⟨Name.simpleName_lit (by decide), Name.simpleName_lit (by decide), rfl, rfl, rfl, rfl⟩

theorem simpleName_objects : Name.simpleName "java.util.Objects" = "Objects" :=
  Name.simpleName_lit (by decide)

theorem mem_valueImports {q : String} : q ∈ a.valueImports {} ↔
    q ∈ valueLibraries ∨ q ∈ a.fieldImports ∨
      q = "java.util.Objects" ∧ ∃ f ∈ a.fields, f.comparison = .equality := by
  have hequality : (a.fields.map Field.valueMember).any (fun p => p.2 == .equality) = true ↔
      ∃ f ∈ a.fields, f.comparison = .equality := by
    rw [List.any_map, List.any_eq_true]
    exact exists_congr fun f => and_congr_right fun _ => beq_iff_eq
  rw [valueImports, List.mem_append, List.mem_append, List.mem_ite_nil_right, hequality,
    List.mem_singleton, or_assoc, and_comm (b := q = _)]
  rfl

include h in
theorem Belongs.resolve_value : ∀ n ∈ typesIn (a.valueDeclaration {}).uses,
    Resolves artifacts a (a.valueImports {}) n := by
  have hlibrary : ∀ n ∈ valueLibraries.map Name.simpleName,
      Resolves artifacts a (a.valueImports {}) n :=
    List.forall_mem_map.mpr fun q hq => resolves_import (mem_valueImports.mpr (.inl hq)) rfl
  have hfields : a.fieldImports ⊆ a.valueImports {} :=
    fun q hq => mem_valueImports.mpr (.inr (.inl hq))
  rw [simpleName_valueLibraries] at hlibrary
  refine forall_mem_typesIn fun all hall => ?_
  have hother : .bound "other" ∈ all := hall (by simp [ValueClass.uses])
  have hmember : ∀ f ∈ a.fields, ∀ use ∈ f.valueMember.1.uses,
      use.Meets (Resolves artifacts a (a.valueImports {})) all :=
    fun f hf => h.forall_uses hf hfields all
  simp only [ValueClass.uses, valueDeclaration, reads_emptyCheck.usesIn_eq,
    reads_resultCode.usesIn_eq, List.forall_mem_append, List.forall_mem_cons,
    List.forall_mem_flatMap, List.forall_mem_map]
  refine ⟨⟨⟨⟨⟨⟨hlibrary _ (by simp), hlibrary _ (by simp), h.resolves_self, hlibrary _ (by simp),
    h.resolves_self, List.forall_mem_nil _⟩, hmember⟩, hmember⟩, fun f hf =>
      ⟨⟨.inr (hlibrary _ (by simp)), List.forall_mem_nil _⟩, hlibrary _ (by simp),
        .inr (hlibrary _ (by simp)), List.forall_mem_nil _⟩⟩, fun f hf => ?list⟩,
    .inl (by decide), h.resolves_self, trivial, fun f hf => ?comparison⟩
  case list =>
    unfold assignmentUses
    split
    · next hc => exact List.forall_mem_singleton.mpr (.inr (resolves_list hf hc hfields))
    · exact List.forall_mem_nil _
  case comparison =>
    show ∀ use ∈ comparisonUses (_, f.comparison), _
    cases hc : f.comparison with
    | equality =>
      have hobjects := mem_valueImports.mpr (.inr (.inr ⟨rfl, f, hf, hc⟩))
      exact List.forall_mem_cons.mpr ⟨.inr (resolves_import hobjects simpleName_objects),
        List.forall_mem_singleton.mpr (.inl hother)⟩
    | order => exact List.forall_mem_singleton.mpr (.inl hother)

/-- Every field is checked, and one that is compared for equality is compared by a library. -/
theorem checked_uses (hf : f ∈ a.fields) :
    [.root "ZzKits", .type (simpleClass ({} : Config).exceptionClass), .root "ResultCode"] ⊆
      (a.valueDeclaration {}).uses := by
  intro use hu
  have hchecks : use ∈ ((a.fields.map Field.valueMember).map Prod.fst).flatMap fun _ =>
      usesIn (a.valueDeclaration {}).emptyCheck ++ .type (a.valueDeclaration {}).exception ::
        usesIn (a.valueDeclaration {}).resultCode := by
    refine List.mem_flatMap.mpr ⟨f.valueMember.1, List.mem_map_of_mem (List.mem_map_of_mem hf), ?_⟩
    simpa [valueDeclaration, reads_emptyCheck.usesIn_eq, reads_resultCode.usesIn_eq] using hu
  simp only [ValueClass.uses, List.mem_append]
  exact .inl (.inl (.inr hchecks))

theorem compared_use (hf : f ∈ a.fields) (hc : f.comparison = .equality) :
    .root "Objects" ∈ (a.valueDeclaration {}).uses := by
  have huse : .root "Objects" ∈ comparisonUses f.valueMember := by
    show _ ∈ comparisonUses (_, f.comparison)
    rw [hc]
    exact List.mem_cons_self
  have hcomparisons := List.mem_flatMap.mpr ⟨_, List.mem_map_of_mem hf, huse⟩
  exact List.mem_append_right _ (.tail _ (.tail _ (.tail _ hcomparisons)))

include h in
theorem Belongs.used_value (hne : a.fields ≠ []) : ∀ q ∈ a.valueImports {},
    Name.simpleName q ∈ typesIn (a.valueDeclaration {}).uses := by
  have hsmall : ∀ s, .bound s ∈ (a.valueDeclaration {}).uses → Name.StartsSmall s :=
    fun s => h.small_value
  obtain ⟨first, hfirst⟩ := List.exists_mem_of_ne_nil _ hne
  have hchecked := checked_uses hfirst
  have hlibrary : ∀ n ∈ valueLibraries.map Name.simpleName,
      n ∈ typesIn (a.valueDeclaration {}).uses := by
    simp only [simpleName_valueLibraries, List.forall_mem_cons]
    exact ⟨used_as_type (by simp [ValueClass.uses]), used_as_type (by simp [ValueClass.uses]),
      used_as_type (by simp [ValueClass.uses, valueDeclaration]),
      used_as_root (hchecked (by simp)) hsmall (by decide), used_as_type (hchecked (by simp)),
      used_as_root (hchecked (by simp)) hsmall (by decide), List.forall_mem_nil _⟩
  intro q hq
  rcases mem_valueImports.mp hq with hq | hq | ⟨rfl, f, hf, hc⟩
  · exact hlibrary _ (List.mem_map_of_mem hq)
  · obtain ⟨f, hf, huse⟩ := h.fieldImports_used q hq
    exact used_as_type (member_uses_subset_value hf huse)
  · rw [simpleName_objects]
    exact used_as_root (compared_use hf hc) hsmall (by decide)

include h in
theorem Belongs.accounted_value (hne : a.fields ≠ []) :
    Accounted artifacts a (a.valueImports {}) (typesIn (a.valueDeclaration {}).uses) where
  resolve := h.resolve_value
  imports := h.used_value hne
  fields f hf := used_as_type (member_uses_subset_value hf (type_mem_uses f))

end Value

/-! ## Files -/

/-- Imports are listed in order and without doubles. -/
theorem pairwise_importList (names : List String) : (importList names).Pairwise (· < ·) := by
  have hsorted : (importList names).Pairwise (· ≤ ·) := List.pairwise_mergeSort' (· ≤ ·) _
  have hnodup : (importList names).Nodup :=
    (List.mergeSort_perm _ _).nodup_iff.mpr (nodup_eraseDups names)
  exact (hsorted.and hnodup).imp fun h => lt_of_le_of_ne h.1 h.2

theorem Belongs.accounted (h : a.Belongs artifacts) (hf : a.file {} = .ok file) :
    Accounted artifacts a file.imports (typesIn file.declaration.uses) := by
  rcases file_of_fileOrCause (file_eq_ok.mp hf) with ⟨hk, hf⟩ | ⟨hk, hf⟩ | ⟨-, -, hf⟩
  · obtain ⟨idClass, serial, hid, hserial, rfl⟩ := entityFile_eq_ok hf
    exact (h.accounted_entity hk hid hserial).fileOf
  · obtain ⟨-, -, rfl⟩ := enumFile_eq_ok hf
    exact (h.accounted_enumeration hk).fileOf
  · obtain ⟨hne, rfl⟩ := valueFile_eq_ok hf
    exact (h.accounted_value hne).fileOf

end Artifact

/-! ## Artifacts of trees -/

namespace Schema

open Artifact

variable {a : Artifact} {s : Spot} {tree : Tree}

theorem Tree.exists_named (ha : a ∈ tree.node.artifacts config package) :
    ∀ f ∈ a.fields, f.type.primitive = none →
      ∃ b ∈ tree.node.artifacts config package, f.type.Names b := by
  intro f hf hn
  obtain ⟨root, hroot⟩ := tree.rooted
  obtain ⟨i, hi⟩ := List.mem_iff_getElem?.mp ha
  obtain ⟨b, hb, ht⟩ := List.mem_map.mp (hroot.forward.mem_drop hi _ (mem_references hf hn))
  exact ⟨b, List.mem_of_mem_drop hb, TypeRef.names_iff.mpr ⟨by rw [hn]; rfl, ht.symm⟩⟩

theorem startsSmall_value : Name.StartsSmall "value" := by decide

theorem ValueObject.small_fields {v : ValueObject} (hv : v.Usable) :
    ∀ f ∈ (v.artifact q).fields, Name.StartsSmall f.name := by
  cases hv with
  | leaf hi primitive => exact List.forall_mem_singleton.mpr startsSmall_value
  | enumeration hi variants => exact List.forall_mem_singleton.mpr (by decide)
  | composite hi hparts =>
    exact List.forall_mem_map.mpr fun part hp =>
      Name.startsSmall_fieldName (hparts part hp).head.className.ne_empty

theorem small_entityArtifact {info : Info} {isRoot : Bool} {sub : Option String}
    {members : List Node} (hi : info.Usable) (hmembers : ∀ m ∈ members, m.Usable) :
    ∀ f ∈ (entityArtifact config q info isRoot sub members).fields, Name.StartsSmall f.name := by
  have hclass := hi.className.ne_empty
  refine List.forall_mem_cons.mpr ⟨Name.startsSmall_fieldName_append hclass,
    List.forall_mem_cons.mpr ⟨Name.startsSmall_fieldName_append hclass,
      List.forall_mem_map.mpr fun m hm => ?_⟩⟩
  rw [m.reference_name]
  exact Name.startsSmall_fieldName (hmembers m hm).head.className.ne_empty

theorem Spot.small_fields (hn : s.node.Usable) :
    ∀ a ∈ s.artifacts config package, ∀ f ∈ a.fields, Name.StartsSmall f.name := by
  obtain ⟨trail, node⟩ := s
  cases hn with
  | value hv => exact List.forall_mem_singleton.mpr (ValueObject.small_fields hv)
  | entity hi isRoot hsub hmembers =>
    exact List.forall_mem_cons.mpr ⟨small_entityArtifact hi hmembers,
      List.forall_mem_cons.mpr ⟨List.forall_mem_singleton.mpr startsSmall_value,
        List.forall_mem_singleton.mpr (List.forall_mem_singleton.mpr startsSmall_value)⟩⟩

/-- An entity has fields of class types only, and one of them has the class of its id. -/
theorem Spot.classes (s : Spot) : ∀ a ∈ s.artifacts config package,
    (a.kind.isEntity = true → ∀ f ∈ a.fields, f.type.primitive = none) ∧
      ∀ c ∈ a.idClass, ∃ f ∈ a.fields, f.type.className = some c := by
  obtain ⟨trail, node⟩ := s
  cases node with
  | value v =>
    refine List.forall_mem_singleton.mpr ?_
    cases v <;> exact ⟨nofun, nofun⟩
  | entity info isRoot sub members =>
    refine List.forall_mem_cons.mpr ⟨⟨fun _ => primitive_entityArtifact _ _ _ _, ?_⟩,
      List.forall_mem_cons.mpr ⟨⟨nofun, nofun⟩, List.forall_mem_singleton.mpr ⟨nofun, nofun⟩⟩⟩
    exact fun c hc => ⟨_, List.mem_cons_self, hc⟩

/-- Every artifact of a tree that was read belongs to the artifacts of the tree. -/
theorem belongs_of_read [Surrogates] {doc : Json} (hr : Tree.read doc = .ok tree)
    (ha : a ∈ tree.node.artifacts {} package) : a.Belongs (tree.node.artifacts {} package) := by
  have hspots := ha
  rw [tree.artifacts_eq_flatMap] at hspots
  obtain ⟨s, hs, has⟩ := List.mem_flatMap.mp hspots
  exact
    { mem := ha
      spelled := spelled_of_artifacts standard_default (wellFormed_of_read hr) a ha
      named := Tree.exists_named ha
      small := Spot.small_fields ((usable_of_read hr).of_mem_spots hs) a has
      classes := (s.classes a has).1
      idClass := (s.classes a has).2 }

end Schema

open Artifact

/-- Every type name in the text of an artifact resolves, and every import is used. The text is a
preamble with the package and the imports, and a body; the types that the body names outside
comments and literals are classes of `java.lang`, classes of artifacts in the same package, and
simple names of imports. Among them are the simple names of all imports and the types of all fields.
The imports are listed in order, and none of them twice. -/
theorem typeNames_resolve [Surrogates] {doc : Json} {tree : Schema.Tree} {package text : String}
    {artifacts : List Artifact} {a : Artifact} (hr : Schema.Tree.read doc = .ok tree)
    (h : tree.artifacts {} package = .ok artifacts) (ha : a ∈ artifacts)
    (ht : a.render {} = .ok text) :
    ∃ file names, a.file {} = .ok file ∧ text = file.preamble ++ file.body ∧
      typeNames file.body = some names ∧
      (∀ n ∈ names, n ∈ languageClasses ∨ (∃ b ∈ artifacts, b.package = a.package ∧
        b.className = n) ∨ n ∈ file.imports.map Name.simpleName) ∧
      (∀ q ∈ file.imports, Name.simpleName q ∈ names) ∧
      (∀ f ∈ a.fields, f.type.use.name ∈ names) ∧
      file.imports.Pairwise (· < ·) := by
  obtain ⟨rfl, -⟩ := Schema.Tree.artifacts_eq_ok h
  have hbelongs := Schema.belongs_of_read hr ha
  cases hf : a.fileOrCause {} with
  | error cause =>
    rw [render_eq_error hf] at ht
    cases ht
  | ok file =>
    rw [render_eq_ok hf] at ht
    cases ht
    have haccounted := hbelongs.accounted (file_eq_ok.mpr hf)
    obtain ⟨hclass, hfields, imports, d, rfl, hd, -⟩ := fileOrCause_eq_ok hf
    have hplain : d.Plain := hd.plain quiet_default hbelongs.spelled.quietClasses hclass hfields
    have hread := (a.fileOf {} imports d).typeNames_body hplain (hd.readable hbelongs.spelled)
      hd.settled
    exact ⟨_, _, file_eq_ok.mpr hf, File.print_eq _, hread, haccounted.resolve,
      haccounted.imports, haccounted.fields, pairwise_importList imports⟩

open scoped Surrogates in
/-- The root of the nested tree names the types of its identity and of its members. -/
theorem typeNames_resolve_nested :
    ∃ (artifacts : List Artifact) (a : Artifact) (file : File) (names : List String),
      Schema.nested.artifacts {} "shop.domain" = .ok artifacts ∧ a ∈ artifacts ∧
      a.render {} = .ok (file.preamble ++ file.body) ∧
      typeNames file.body = some names ∧
      (∀ n ∈ ["OrderId", "OrderSN", "OrderItemEntity", "TotalAmount"], n ∈ names) ∧
      ∀ n ∈ names, Resolves artifacts a file.imports n := by
  have hall : Schema.nested.artifacts {} "shop.domain" =
      .ok (Schema.nested.node.artifacts {} "shop.domain") := rfl
  have ha : Schema.entityArtifact {} "shop.domain" Schema.nested.info true none
      Schema.nested.members ∈ Schema.nested.node.artifacts {} "shop.domain" := List.mem_cons_self
  obtain ⟨root, hroot⟩ :=
    Schema.wellFormed_nested.exists_file ha (not_hasFaultyVariant (by decide))
  have ht := render_eq_ok (file_eq_ok.mp hroot)
  obtain ⟨file, names, -, hprint, hnames, hresolve, -, hfields, -⟩ :=
    typeNames_resolve Schema.wellFormed_nested.read_document hall ha ht
  have htypes : ["OrderId", "OrderSN", "OrderItemEntity", "TotalAmount"] =
      (Schema.entityArtifact {} "shop.domain" Schema.nested.info true none
        Schema.nested.members).fields.map fun f => f.type.use.name := by decide
  refine ⟨_, _, file, names, hall, ha, hprint ▸ ht, hnames, ?_, hresolve⟩
  rw [htypes]
  exact List.forall_mem_map.mpr hfields

end DomainCodegen
