import DomainCodegen.Proofs.Artifact.Rendering
import DomainCodegen.Proofs.Java.Plain

/-!
# What the file of an artifact holds

A file that an artifact has declares the artifact in one of three forms, and imports nothing but
fixed classes and the classes of the fields (`fileOrCause_eq_ok`). Its names have passed the checks,
so that it is plain as soon as the names which no check looks at are quiet (`plain_of_quiet`).
-/

namespace DomainCodegen

open Java

namespace Artifact

variable {config : Config} {a : Artifact} {f : Field} {file : File} {cause : RenderCause}

/-! ## The form of a file -/

/-- What an entity, a value object and an enumeration are declared as. -/
inductive DeclaredAs (config : Config) (a : Artifact) : Declaration → Prop
  | entity (hk : a.kind ≠ .enumeration) {idClass : String} {serial : Field}
      (hid : present a.idClass = some idClass) (hserial : serial ∈ a.fields) :
      DeclaredAs config a <| .entity
        { name := a.className
          base := simpleClass (a.baseClass config)
          idClass
          members := a.fields.map Field.member
          serialField := serial.name
          serialClass := serial.type.className.getD "None"
          serialExpression := config.serialExpression }
  | value (hk : a.kind ≠ .enumeration) :
      DeclaredAs config a <| .value
        { name := a.className
          interface := simpleClass config.valueInterface
          members := a.fields.map Field.valueMember
          emptyCheck := simpleClass config.emptyCheckClass ++ "." ++ config.emptyCheckMethod
          exception := simpleClass config.exceptionClass
          resultCode := simpleClass config.resultCodeClass ++ "." ++ config.resultCodeConstant }
  | enumeration (hk : a.kind = .enumeration) (hne : a.variants ≠ [])
      (hv : checkVariants [] 0 a.variants = .ok ()) :
      DeclaredAs config a <| .enumeration
        { name := a.className
          interface := simpleClass config.valueInterface
          constants := a.variants.map fun v => (v.constant, v.meaning) }

/-- The classes that a file can import for other reasons than its fields. -/
def libraryImports (config : Config) : List String :=
  ["lombok.AccessLevel", "lombok.EqualsAndHashCode", "lombok.Getter", "lombok.Setter",
    "lombok.experimental.SuperBuilder", "java.util.ArrayList", "java.util.Objects"] ++
  (importedClasses config).map ClassSetting.text

theorem checkNames_eq_ok {index : Nat} {fields : List Field}
    (h : a.checkNames index fields = .ok ()) : ∀ f ∈ fields, Name.isIdentifier f.name = true := by
  induction fields generalizing index with
  | nil => exact nofun
  | cons f r ih =>
    unfold checkNames at h
    split at h
    · next hf => exact List.forall_mem_cons.mpr ⟨hf, ih h⟩
    · cases h

theorem checkAllNames_eq_ok (h : a.checkAllNames = .ok ()) :
    Name.isIdentifier a.className = true ∧ ∀ f ∈ a.fields, Name.isIdentifier f.name = true := by
  unfold checkAllNames at h
  split at h
  · next hc => exact ⟨hc, checkNames_eq_ok h⟩
  · cases h

/-- A file that declares the artifact and imports what it may. -/
def IsFile (config : Config) (a : Artifact) (file : File) : Prop :=
  ∃ imports declaration, file = a.fileOf config imports declaration ∧
    a.DeclaredAs config declaration ∧
    ∀ name ∈ imports, name ∈ libraryImports config ∨ name ∈ a.fieldImports

theorem mem_imports_fileOf {imports : List String} {declaration : Declaration} {name : String} :
    name ∈ (a.fileOf config imports declaration).imports ↔ name ∈ imports := by
  rw [fileOf, importList, List.mem_mergeSort, List.mem_eraseDups]

theorem mem_of_present {name : Option String} {s : String} (h : present name = some s) :
    name = some s :=
  (Option.filter_eq_some_iff.mp h).1

theorem eq_of_primitiveImport {p : Schema.Primitive} {name : String}
    (h : primitiveImport p = some name) :
    name = "java.math.BigDecimal" ∨ name = "java.time.LocalDateTime" := by
  cases p <;> simp_all [primitiveImport]

/-- Fields import lists, the classes of primitives, and classes from other packages. -/
theorem forall_mem_fieldImports {P : String → Prop} (hlist : P "java.util.List")
    (hdecimal : P "java.math.BigDecimal") (hdateTime : P "java.time.LocalDateTime")
    (hclass : ∀ f ∈ a.fields, ∀ className ∈ f.type.className, ∀ home ∈ f.type.package,
      home ≠ a.package → P (home ++ "." ++ className)) :
    ∀ name ∈ a.fieldImports, P name := by
  intro name hname
  obtain ⟨f, hf, hname⟩ := List.mem_flatMap.mp hname
  rcases List.mem_append.mp hname with hname | hname
  · split at hname
    · rwa [List.mem_singleton.mp hname]
    · cases hname
  split at hname
  · rcases eq_of_primitiveImport (Option.mem_toList.mp hname) with rfl | rfl
    · exact hdecimal
    · exact hdateTime
  · rw [Option.mem_toList, TypeRef.classImport] at hname
    split at hname
    · next className home hc hh =>
      split at hname
      · cases hname
      · next hother =>
        cases hname
        exact hclass f hf className (mem_of_present hc) home (mem_of_present hh) hother
    · cases hname

theorem text_mem_libraryImports {c : ClassSetting} (h : c ∈ importedClasses config) :
    c.text ∈ libraryImports config :=
  List.mem_append_right _ (List.mem_map_of_mem h)

theorem baseClass_mem : a.baseClass config ∈ importedClasses config := by
  unfold baseClass importedClasses
  split <;> simp

/-- What an entity imports. -/
def entityImports (config : Config) (a : Artifact) : List String :=
  ["lombok.AccessLevel", "lombok.EqualsAndHashCode", "lombok.Getter", "lombok.Setter",
    "lombok.experimental.SuperBuilder", (a.baseClass config).text, config.serialGenerator.text] ++
  a.fieldImports ++
  (if a.fields.any fun f => f.type.collection then ["java.util.ArrayList"] else [])

/-- What a value object imports. -/
def valueImports (config : Config) (a : Artifact) : List String :=
  ["lombok.EqualsAndHashCode", "lombok.Getter"] ++ (valueClasses config).map ClassSetting.text ++
  a.fieldImports ++
  (if (a.fields.map Field.valueMember).any fun p => p.2 == .equality then ["java.util.Objects"]
    else [])

/-- The class of an entity, given the class of its id and the field of its serial number. -/
def entityDeclaration (config : Config) (a : Artifact) (idClass : String) (serial : Field) :
    EntityClass where
  name := a.className
  base := simpleClass (a.baseClass config)
  idClass := idClass
  members := a.fields.map Field.member
  serialField := serial.name
  serialClass := serial.type.className.getD "None"
  serialExpression := config.serialExpression

def valueDeclaration (config : Config) (a : Artifact) : ValueClass where
  name := a.className
  interface := simpleClass config.valueInterface
  members := a.fields.map Field.valueMember
  emptyCheck := simpleClass config.emptyCheckClass ++ "." ++ config.emptyCheckMethod
  exception := simpleClass config.exceptionClass
  resultCode := simpleClass config.resultCodeClass ++ "." ++ config.resultCodeConstant

def enumDeclaration (config : Config) (a : Artifact) : EnumClass where
  name := a.className
  interface := simpleClass config.valueInterface
  constants := a.variants.map fun v => (v.constant, v.meaning)

theorem entityFile_eq_ok (h : a.entityFile config = .ok file) :
    ∃ idClass serial, present a.idClass = some idClass ∧ serial ∈ a.fields ∧
      file = a.fileOf config (a.entityImports config)
        (.entity (a.entityDeclaration config idClass serial)) := by
  unfold entityFile at h
  split at h
  · cases h
  · next idClass serial hid hserial =>
    have hmem : serial ∈ a.fields.filter fun f => f.role = .serialNumber :=
      hserial ▸ List.mem_singleton_self serial
    dsimp only at h
    split at h
    · cases h
    · cases h
    · cases h
      exact ⟨idClass, serial, hid, List.mem_of_mem_filter hmem, rfl⟩
  · cases h

theorem valueFile_eq_ok (h : a.valueFile config = .ok file) :
    a.fields ≠ [] ∧
      file = a.fileOf config (a.valueImports config) (.value (a.valueDeclaration config)) := by
  unfold valueFile at h
  split at h
  · cases h
  next hempty =>
  split at h
  · cases h
  · cases h
    exact ⟨mt List.isEmpty_iff.mpr hempty, rfl⟩

theorem enumFile_eq_ok (h : a.enumFile config = .ok file) :
    a.variants ≠ [] ∧ checkVariants [] 0 a.variants = .ok () ∧
      file = a.fileOf config ["lombok.Getter", config.valueInterface.text]
        (.enumeration (a.enumDeclaration config)) := by
  unfold enumFile at h
  split at h
  · cases h
  next hempty =>
  split at h
  · cases h
  · cases h
  · next hv _ =>
    cases h
    exact ⟨mt List.isEmpty_iff.mpr hempty, hv, rfl⟩

theorem isFile_of_entityFile (hk : a.kind.isEntity = true) (h : a.entityFile config = .ok file) :
    a.IsFile config file := by
  have hne : a.kind ≠ .enumeration := by
    intro heq
    rw [heq] at hk
    cases hk
  obtain ⟨idClass, serial, hid, hserial, rfl⟩ := entityFile_eq_ok h
  have hbase : (a.baseClass config).text ∈ libraryImports config :=
    text_mem_libraryImports baseClass_mem
  have hfixed : ["lombok.AccessLevel", "lombok.EqualsAndHashCode", "lombok.Getter",
      "lombok.Setter", "lombok.experimental.SuperBuilder", (a.baseClass config).text,
      config.serialGenerator.text] ⊆ libraryImports config := by
    simp only [List.cons_subset, hbase, true_and]
    simp [libraryImports, importedClasses]
  refine ⟨_, _, rfl, .entity hne hid hserial, fun name hname => ?_⟩
  rcases List.mem_append.mp hname with hname | hname
  · exact (List.mem_append.mp hname).imp (fun hname => hfixed hname) id
  · split at hname
    · exact .inl (by simp [libraryImports, List.mem_singleton.mp hname])
    · cases hname

theorem isFile_of_valueFile (hk : a.kind ≠ .enumeration) (h : a.valueFile config = .ok file) :
    a.IsFile config file := by
  obtain ⟨-, rfl⟩ := valueFile_eq_ok h
  have hfixed : ["lombok.EqualsAndHashCode", "lombok.Getter"] ++
      (valueClasses config).map ClassSetting.text ⊆ libraryImports config := by
    simp [libraryImports, importedClasses, valueClasses]
  refine ⟨_, _, rfl, .value hk, fun name hname => ?_⟩
  rcases List.mem_append.mp hname with hname | hname
  · exact (List.mem_append.mp hname).imp (fun hname => hfixed hname) id
  · split at hname
    · exact .inl (by simp [libraryImports, List.mem_singleton.mp hname])
    · cases hname

theorem isFile_of_enumFile (hk : a.kind = .enumeration) (h : a.enumFile config = .ok file) :
    a.IsFile config file := by
  obtain ⟨hne, hv, rfl⟩ := enumFile_eq_ok h
  have hfixed : ["lombok.Getter", config.valueInterface.text] ⊆ libraryImports config := by
    simp [libraryImports, importedClasses, valueClasses]
  exact ⟨_, _, rfl, .enumeration hk hne hv, fun name hname => .inl (hfixed hname)⟩

/-- A file is an entity, an enumeration or a value object by the kind of its artifact. -/
theorem file_of_fileOrCause (h : a.fileOrCause config = .ok file) :
    a.kind.isEntity = true ∧ a.entityFile config = .ok file ∨
      a.kind = .enumeration ∧ a.enumFile config = .ok file ∨
      a.kind.isEntity = false ∧ a.kind ≠ .enumeration ∧ a.valueFile config = .ok file := by
  unfold fileOrCause at h
  split at h
  · cases h
  split at h
  · next hk => exact .inl ⟨hk, h⟩
  next hk =>
  split at h
  · next he => exact .inr (.inl ⟨he, h⟩)
  · next he => exact .inr (.inr ⟨Bool.not_eq_true _ ▸ hk, he, h⟩)

theorem fileOrCause_eq_ok (h : a.fileOrCause config = .ok file) :
    Name.isIdentifier a.className = true ∧ (∀ f ∈ a.fields, Name.isIdentifier f.name = true) ∧
      a.IsFile config file := by
  have hnames : a.checkAllNames = .ok () := by
    unfold fileOrCause at h
    split at h
    · cases h
    · assumption
  obtain ⟨hclass, hfields⟩ := checkAllNames_eq_ok hnames
  refine ⟨hclass, hfields, ?_⟩
  rcases file_of_fileOrCause h with ⟨hk, h⟩ | ⟨hk, h⟩ | ⟨-, hk, h⟩
  · exact isFile_of_entityFile hk h
  · exact isFile_of_enumFile hk h
  · exact isFile_of_valueFile hk h

/-! ## Plain files -/

/-- Settings in which neither a literal nor a comment opens. -/
structure QuietSettings (config : Config) : Prop where
  classes : ∀ c ∈ importedClasses config, Quiet c.text
  serialExpression : Quiet config.serialExpression
  emptyCheckMethod : Quiet config.emptyCheckMethod
  resultCodeConstant : Quiet config.resultCodeConstant

theorem quiet_default : QuietSettings {} where
  classes := by
    simp only [importedClasses, valueClasses, List.forall_mem_cons, ClassSetting.text]
    and_intros
    all_goals first | exact .lit (by decide) | exact List.forall_mem_nil _
  serialExpression := .lit (by decide)
  emptyCheckMethod := .lit (by decide)
  resultCodeConstant := .lit (by decide)

/-- Names in which neither a literal nor a comment opens. The names that are checked are not among
them. -/
structure QuietNames (a : Artifact) : Prop where
  package : Quiet a.package
  idClass : ∀ name ∈ a.idClass, Quiet name
  fieldClass : ∀ f ∈ a.fields, ∀ name ∈ f.type.className, Quiet name
  fieldPackage : ∀ f ∈ a.fields, ∀ name ∈ f.type.package, Quiet name

/-- The names among them that a declaration holds. -/
structure QuietClasses (a : Artifact) : Prop where
  idClass : ∀ name ∈ a.idClass, Quiet name
  fieldClass : ∀ f ∈ a.fields, ∀ name ∈ f.type.className, Quiet name

theorem QuietNames.classes (h : a.QuietNames) : a.QuietClasses := ⟨h.idClass, h.fieldClass⟩

theorem quiet_of_isIdentifier {s : String} (h : Name.isIdentifier s = true) : Quiet s := by
  intro c hc
  rcases Name.mem_of_isIdentifier h c hc with hpart | rfl
  · constructor <;> (rintro rfl; revert hpart; decide)
  · decide

theorem quiet_simpleClass {c : ClassSetting} (h : Quiet c.text) : Quiet (simpleClass c) := by
  intro d hd
  rw [simpleClass, Name.simpleName, String.toList_ofList, Name.simpleChars, List.mem_reverse] at hd
  exact h d (List.mem_reverse.mp (List.takeWhile_subset _ hd))

theorem QuietClasses.use (h : a.QuietClasses) (hf : f ∈ a.fields) : Quiet f.type.use.name := by
  unfold TypeRef.use
  split
  · next p _ => cases p <;> exact .lit (by decide)
  · cases hp : present f.type.className with
    | none => exact .lit (by decide)
    | some name => exact h.fieldClass f hf name (mem_of_present hp)

theorem quiet_libraryImports (hc : QuietSettings config) :
    ∀ name ∈ libraryImports config, Quiet name := by
  refine List.forall_mem_append.mpr ⟨?_, List.forall_mem_map.mpr hc.classes⟩
  simp only [List.forall_mem_cons]
  and_intros
  all_goals first | exact .lit (by decide) | exact List.forall_mem_nil _

theorem QuietNames.fieldImports (h : a.QuietNames) : ∀ name ∈ a.fieldImports, Quiet name := by
  refine forall_mem_fieldImports (.lit (by decide)) (.lit (by decide)) (.lit (by decide)) ?_
  intro f hf className hclass home hhome _
  exact quiet_append.mpr ⟨quiet_append.mpr ⟨h.fieldPackage f hf home hhome, .lit (by decide)⟩,
    h.fieldClass f hf className hclass⟩

theorem QuietClasses.plain_member (h : a.QuietClasses)
    (hfields : ∀ f ∈ a.fields, Name.isIdentifier f.name = true) (hf : f ∈ a.fields) :
    f.member.Plain where
  type := h.use hf
  name := quiet_of_isIdentifier (hfields f hf)
  note := by
    unfold Field.member
    intro note hn
    split at hn
    · cases hn
      exact .lit (by decide)
    · cases hn

theorem QuietClasses.quiet_serialClass (h : a.QuietClasses) (hf : f ∈ a.fields) :
    Quiet (f.type.className.getD "None") := by
  cases hn : f.type.className with
  | none => exact .lit (by decide)
  | some name => exact h.fieldClass f hf name hn

theorem isIdentifier_of_checkVariants {seen : List String} {index : Nat}
    {variants : List Schema.Variant} (h : checkVariants seen index variants = .ok ()) :
    ∀ v ∈ variants, Name.isIdentifier v.constant = true := by
  intro v hv
  obtain ⟨before, after, heq⟩ := List.append_of_mem hv
  have hfault := (checkVariants_eq_ok h heq).2
  exact Bool.not_eq_false _ ▸ fun hid => hfault (.inl hid)

theorem DeclaredAs.plain {d : Declaration} (hd : a.DeclaredAs config d) (hc : QuietSettings config)
    (h : a.QuietClasses) (hclass : Name.isIdentifier a.className = true)
    (hfields : ∀ f ∈ a.fields, Name.isIdentifier f.name = true) : d.Plain := by
  have hsimple : ∀ c ∈ importedClasses config, Quiet (simpleClass c) :=
    fun c hmem => quiet_simpleClass (hc.classes c hmem)
  cases hd with
  | @entity _ idClass serial hid hserial =>
    exact
      { name := quiet_of_isIdentifier hclass
        base := hsimple _ baseClass_mem
        idClass := h.idClass idClass (mem_of_present hid)
        members := List.forall_mem_map.mpr fun f hf => h.plain_member hfields hf
        serialField := quiet_of_isIdentifier (hfields serial hserial)
        serialClass := h.quiet_serialClass hserial
        serialExpression := hc.serialExpression }
  | value hk =>
    exact
      { name := quiet_of_isIdentifier hclass
        interface := hsimple _ (by simp [importedClasses, valueClasses])
        members := List.forall_mem_map.mpr fun f hf =>
          { h.plain_member hfields hf with note := nofun }
        emptyCheck := quiet_append.mpr ⟨quiet_append.mpr
          ⟨hsimple _ (by simp [importedClasses, valueClasses]), .lit (by decide)⟩,
            hc.emptyCheckMethod⟩
        exception := hsimple _ (by simp [importedClasses, valueClasses])
        resultCode := quiet_append.mpr ⟨quiet_append.mpr
          ⟨hsimple _ (by simp [importedClasses, valueClasses]), .lit (by decide)⟩,
            hc.resultCodeConstant⟩ }
  | enumeration hk hne hv =>
    exact
      { name := quiet_of_isIdentifier hclass
        interface := hsimple _ (by simp [importedClasses, valueClasses])
        constants := List.forall_mem_map.mpr fun v hmem =>
          quiet_of_isIdentifier (isIdentifier_of_checkVariants hv v hmem) }

/-- The file of an artifact with quiet names is plain. -/
theorem plain_of_quiet (hc : QuietSettings config) (h : a.QuietNames)
    (hf : a.fileOrCause config = .ok file) : file.Plain := by
  obtain ⟨hclass, hfields, imports, declaration, rfl, hdeclared, himports⟩ := fileOrCause_eq_ok hf
  refine ⟨?banner, h.package, fun name hname => ?imports,
    hdeclared.plain hc h.classes hclass hfields⟩
  case banner =>
    intro text ht
    unfold fileOf at ht
    dsimp only at ht
    split at ht
    · cases ht
      exact .lit (by decide)
    · cases ht
  case imports =>
    rcases himports name (mem_imports_fileOf.mp hname) with hname | hname
    · exact quiet_libraryImports hc name hname
    · exact h.fieldImports name hname

end Artifact

end DomainCodegen
