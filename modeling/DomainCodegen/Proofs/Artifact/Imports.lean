import DomainCodegen.Proofs.Artifact.Flattening
import DomainCodegen.Proofs.Artifact.ReadBack

/-!
# Simple names of imports

A file imports classes of libraries, whose simple names are all different, and what its artifact
names in other packages (`Importing`). Nothing compares the names of a schema with those of
libraries or of other packages, so whether each simple name stands for one class depends on the
schema (`Importing.unambiguous_iff`). Ids and serial numbers are safe, since their classes end like
no class of a library and no entity, and so are value objects among themselves, which share their
package (`imports_unambiguous_iff`).
-/

namespace DomainCodegen

open Java

variable {config : Config} {package q : String}

/-! ## Simple names -/

namespace Name

variable {c home : String}

/-- The simple name of a class in a package is the class. -/
theorem simpleName_qualified (h : '.' ∉ c.toList) : simpleName (home ++ "." ++ c) = c := by
  have hkept : ∀ d ∈ c.toList.reverse, (decide (d ≠ '.')) = true := by
    intro d hd
    refine decide_eq_true fun heq => h ?_
    rw [← heq]
    exact List.mem_reverse.mp hd
  have htoList : (home ++ "." ++ c).toList.reverse =
      c.toList.reverse ++ '.' :: home.toList.reverse := by
    simp
  rw [simpleName, simpleChars, htoList, List.takeWhile_append_of_pos hkept,
    List.takeWhile_cons_of_neg (by simp), List.append_nil, List.reverse_reverse,
    String.ofList_toList]

/-- The simple name of a text that is written out is computed on its characters. -/
theorem simpleName_lit {cs ds : List Char} (h : simpleChars cs = ds) :
    simpleName (String.ofList cs) = String.ofList ds := by
  rw [simpleName, String.toList_ofList, h]

end Name

/-- A file in which a simple name stands for one class. -/
structure Java.File.Unambiguous (f : File) : Prop where
  imports : ∀ n ∈ f.imports, ∀ m ∈ f.imports, Name.simpleName n = Name.simpleName m → n = m
  declared : ∀ n ∈ f.imports, Name.simpleName n = f.outline.name →
    n = f.outline.package ++ "." ++ f.outline.name

namespace Artifact

variable {a b : Artifact} {file : File} {n : String}

/-! ## Classes of libraries -/

/-- What files import that does not come from a schema. -/
def libraryClasses : List String :=
  libraryImports {} ++ ["java.util.List", "java.math.BigDecimal", "java.time.LocalDateTime"]

theorem simpleName_libraryClasses : libraryClasses.map Name.simpleName =
    ["AccessLevel", "EqualsAndHashCode", "Getter", "Setter", "SuperBuilder", "ArrayList", "Objects",
      "AggregateRoot", "BaseEntity", "SerialNoGeneratorTemplate", "ValueObject", "ZzKits",
      "ServiceException", "ResultCode", "List", "BigDecimal", "LocalDateTime"] := by
  simp only [libraryClasses, libraryImports, importedClasses, valueClasses, List.cons_append,
    List.nil_append, List.map_cons, List.map_nil, List.cons.injEq, and_true]
  and_intros <;> exact Name.simpleName_lit (by decide)

theorem libraryClasses_apart : (libraryClasses.map Name.simpleName).Nodup := by
  rw [simpleName_libraryClasses]
  decide

/-- No library has a class that looks like an id or a serial number. -/
theorem libraryClasses_last : ∀ n ∈ libraryClasses,
    (Name.simpleName n).toList.getLast? ≠ some 'd' ∧
      (Name.simpleName n).toList.getLast? ≠ some 'N' := by
  have hall : ∀ s ∈ libraryClasses.map Name.simpleName,
      s.toList.getLast? ≠ some 'd' ∧ s.toList.getLast? ≠ some 'N' := by
    rw [simpleName_libraryClasses]
    decide
  exact fun n hn => hall _ (List.mem_map_of_mem hn)

theorem libraryClasses_valuePackage : ∀ n ∈ libraryClasses,
    ¬ ".valueobject.".toList <:+: n.toList := by decide +kernel

theorem file_imports (hf : a.file {} = .ok file) :
    ∀ n ∈ file.imports, n ∈ libraryImports {} ∨ n ∈ a.fieldImports := by
  obtain ⟨-, -, imports, declaration, rfl, -, himports⟩ := fileOrCause_eq_ok (file_eq_ok.mp hf)
  exact fun n hn => himports n (mem_imports_fileOf.mp hn)

/-- An entity imports whatever its fields ask for. -/
theorem fieldImports_subset (hk : a.kind.isEntity = true) (hf : a.file config = .ok file) :
    a.fieldImports ⊆ file.imports := by
  rcases file_of_fileOrCause (file_eq_ok.mp hf) with ⟨-, h⟩ | ⟨he, -⟩ | ⟨hn, -⟩
  · obtain ⟨idClass, serial, -, -, rfl⟩ := entityFile_eq_ok h
    exact fun n hn =>
      mem_imports_fileOf.mpr (List.mem_append_left _ (List.mem_append_right _ hn))
  · rw [he] at hk
    cases hk
  · rw [hn] at hk
    cases hk

theorem present_of_ne {s : String} (h : s ≠ "") : present (some s) = some s := by
  simp [present, h]

theorem mem_fieldImports {f : Field} (hf : f ∈ a.fields) (hn : f.type.Names b)
    (hc : b.className ≠ "") (hp : b.package ≠ "") (hother : b.package ≠ a.package) :
    b.qualifiedName ∈ a.fieldImports := by
  obtain ⟨hprimitive, hpackage, hclass⟩ := hn
  refine List.mem_flatMap.mpr ⟨f, hf, List.mem_append_right _ ?_⟩
  have himport : f.type.classImport a.package = some b.qualifiedName := by
    rw [TypeRef.classImport, hclass, hpackage, present_of_ne hc, present_of_ne hp]
    exact if_neg hother
  rw [hprimitive, himport]
  exact List.mem_singleton_self _

/-! ## What files import -/

/-- The artifacts that stand in another package. -/
def outside (q : String) (parts : List Artifact) : List Artifact :=
  parts.filter fun b => b.package ≠ q

theorem mem_outside {parts : List Artifact} :
    b ∈ outside q parts ↔ b ∈ parts ∧ b.package ≠ q := by
  simp [outside]

/-- A file that imports, other than classes of libraries, exactly the parts of its artifact that
stand in another package. -/
structure Importing (file : File) (a : Artifact) (parts : List Artifact) : Prop where
  outline : file.outline = a.outline
  only : ∀ n ∈ file.imports,
    n ∈ libraryClasses ∨ ∃ b ∈ outside a.package parts, n = b.qualifiedName
  all : ∀ b ∈ outside a.package parts, b.qualifiedName ∈ file.imports
  dot_notMem : ∀ b ∈ outside a.package parts, '.' ∉ b.className.toList

/-- No other class of a library that a file imports has the simple name of an artifact. -/
def Unshadowed (file : File) (b : Artifact) : Prop :=
  ∀ n ∈ file.imports, n ∈ libraryClasses → Name.simpleName n = b.className → n = b.qualifiedName

/-- The classes of an artifact and of its parts in other packages have simple names that stand for
nothing else. -/
structure Unconfused (file : File) (a : Artifact) (parts : List Artifact) : Prop where
  self : Unshadowed file a
  part : ∀ b ∈ outside a.package parts, Unshadowed file b
  className : ∀ b ∈ outside a.package parts, b.className ≠ a.className
  package : ∀ b ∈ outside a.package parts, ∀ b' ∈ outside a.package parts,
    b.className = b'.className → b.package = b'.package

theorem qualifiedName_eq_iff (hc : a.className = b.className) :
    a.qualifiedName = b.qualifiedName ↔ a.package = b.package := by
  unfold qualifiedName
  rw [hc]
  simp

theorem eq_of_simpleName_eq {m : String} (hn : n ∈ libraryClasses) (hm : m ∈ libraryClasses)
    (h : Name.simpleName n = Name.simpleName m) : n = m :=
  List.inj_on_of_nodup_map libraryClasses_apart hn hm h

/-- Simple names are unambiguous exactly if the artifacts that are imported are not confused. -/
theorem Importing.unambiguous_iff {parts : List Artifact} (h : Importing file a parts) :
    file.Unambiguous ↔ Unconfused file a parts := by
  have hsimple : ∀ b ∈ outside a.package parts, Name.simpleName b.qualifiedName = b.className :=
    fun b hb => Name.simpleName_qualified (h.dot_notMem b hb)
  have hself : ∀ n, (Name.simpleName n = file.outline.name →
      n = file.outline.package ++ "." ++ file.outline.name) ↔
        (Name.simpleName n = a.className → n = a.qualifiedName) := by
    rw [h.outline]
    exact fun _ => Iff.rfl
  constructor
  · rintro ⟨himports, hdeclared⟩
    refine ⟨fun n hn _ => (hself n).mp (hdeclared n hn), fun b hb n hn _ hs => ?_,
      fun b hb hs => ?_, fun b hb b' hb' hs => ?_⟩
    · exact himports n hn _ (h.all b hb) (hs.trans (hsimple b hb).symm)
    · have heq := (hself _).mp (hdeclared _ (h.all b hb)) ((hsimple b hb).trans hs)
      exact (mem_outside.mp hb).2 ((qualifiedName_eq_iff hs).mp heq)
    · refine (qualifiedName_eq_iff hs).mp (himports _ (h.all b hb) _ (h.all b' hb') ?_)
      rw [hsimple b hb, hsimple b' hb', hs]
  · intro hu
    refine ⟨fun n hn m hm hs => ?_, fun n hn => (hself n).mpr fun hs => ?_⟩
    · rcases h.only n hn with hlib | ⟨b, hb, rfl⟩
      · rcases h.only m hm with hlib' | ⟨b', hb', rfl⟩
        · exact eq_of_simpleName_eq hlib hlib' hs
        · exact hu.part b' hb' n hn hlib (hs.trans (hsimple b' hb'))
      · rcases h.only m hm with hlib' | ⟨b', hb', rfl⟩
        · exact (hu.part b hb m hm hlib' (hs.symm.trans (hsimple b hb))).symm
        · rw [hsimple b hb, hsimple b' hb'] at hs
          exact (qualifiedName_eq_iff hs).mpr (hu.package b hb b' hb' hs)
    · rcases h.only n hn with hlib | ⟨b, hb, rfl⟩
      · exact hu.self n hn hlib hs
      · exact absurd ((hsimple b hb).symm.trans hs) (hu.className b hb)

theorem Importing.unambiguous_nil (h : Importing file a []) :
    file.Unambiguous ↔ Unshadowed file a :=
  h.unambiguous_iff.trans ⟨fun hu => hu.self, fun hself => ⟨hself, nofun, nofun, nofun⟩⟩

theorem Importing.mem_libraryClasses (h : Importing file a []) :
    ∀ n ∈ file.imports, n ∈ libraryClasses := by
  intro n hn
  rcases h.only n hn with hlib | ⟨b, hb, -⟩
  · exact hlib
  · cases hb

/-- No class of a library stands in a value package. -/
theorem ne_qualifiedName_of_mem (hp : a.package = ({} : Config).valuePackageOf q) :
    ∀ n ∈ libraryClasses, n ≠ a.qualifiedName := by
  rintro n hn rfl
  refine libraryClasses_valuePackage _ hn ⟨q.toList, a.className.toList, ?_⟩
  rw [qualifiedName, hp, Config.valuePackageOf]
  simp

theorem Importing.unambiguous_value (h : Importing file a [])
    (hp : a.package = ({} : Config).valuePackageOf q) :
    file.Unambiguous ↔ a.className ∉ file.imports.map Name.simpleName := by
  rw [h.unambiguous_nil, List.mem_map, not_exists]
  constructor
  · rintro hu n ⟨hn, hs⟩
    have hlib := h.mem_libraryClasses n hn
    exact ne_qualifiedName_of_mem hp n hlib (hu n hn hlib hs)
  · exact fun hnot n hn _ hs => absurd ⟨hn, hs⟩ (hnot n)

end Artifact

namespace Schema

open Artifact

variable {info : Info} {members : List Node} {file : File} {a : Artifact}

/-! ## What artifacts import -/

/-- An artifact whose fields stay in its package imports classes of libraries only. -/
theorem importing_nil (hs : a.Spelled) (hf : a.file {} = .ok file)
    (hhome : ∀ f ∈ a.fields, ∀ home ∈ f.type.package, home = a.package) :
    Importing file a [] where
  outline := hs.outline_file hf
  only n hn := by
    refine .inl ((file_imports hf n hn).elim (List.mem_append_left _) fun hfield => ?_)
    refine forall_mem_fieldImports (P := (· ∈ libraryClasses)) (by decide) (by decide) (by decide)
      ?_ n hfield
    exact fun f hf _ _ home hh hother => absurd (hhome f hf home hh) hother
  all := nofun
  dot_notMem := nofun

theorem ValueObject.package_artifact (v : ValueObject) : (v.artifact q).package = q := by
  cases v <;> rfl

theorem ValueObject.home_field (v : ValueObject) :
    ∀ f ∈ (v.artifact q).fields, ∀ home ∈ f.type.package, home = (v.artifact q).package := by
  cases v with
  | leaf info primitive => exact List.forall_mem_singleton.mpr nofun
  | enumeration info variants => exact List.forall_mem_singleton.mpr nofun
  | composite info parts =>
    exact List.forall_mem_map.mpr fun part _ home hh => (Option.some_inj.mp hh).symm

/-- The artifacts that an entity names. -/
def entityParts (config : Config) (q : String) (info : Info) (members : List Node) :
    List Artifact :=
  idArtifact config q info :: serialArtifact config q info ::
    members.map (Node.artifactIn config q)

theorem references_eq_parts (info : Info) (isRoot : Bool) (sub : Option String)
    (members : List Node) :
    (entityArtifact config q info isRoot sub members).references =
      (entityParts config q info members).map Artifact.target := by
  rw [references_entityArtifact, entityParts, List.map_cons, List.map_cons, List.map_map]
  rfl

theorem Node.Usable.isStem_artifactIn {m : Node} (hn : m.Usable) :
    IsStem (m.artifactIn {} q).className := by
  cases hn with
  | value hv =>
    cases hv with
    | leaf hi => exact hi.className
    | composite hi => exact hi.className
    | enumeration hi => exact hi.className
  | entity hi isRoot => exact isStem_entityClass standard_default hi isRoot

theorem isStem_entityParts (hi : info.Usable) (hmembers : ∀ m ∈ members, m.Usable) :
    ∀ b ∈ entityParts {} q info members, IsStem b.className :=
  List.forall_mem_cons.mpr ⟨isStem_idClass standard_default hi,
    List.forall_mem_cons.mpr ⟨isStem_serialClass standard_default hi,
      List.forall_mem_map.mpr fun m hm => (hmembers m hm).isStem_artifactIn⟩⟩

theorem package_entityParts :
    ∀ b ∈ entityParts config q info members, b.package = q ∨ ∃ s, b.package = q ++ "." ++ s := by
  refine List.forall_mem_cons.mpr ⟨.inr ⟨_, rfl⟩, List.forall_mem_cons.mpr ⟨.inr ⟨_, rfl⟩,
    List.forall_mem_map.mpr fun m _ => ?_⟩⟩
  cases m with
  | value v => exact .inr ⟨_, v.package_artifact⟩
  | entity info isRoot sub members =>
    show childPackage q sub = q ∨ ∃ s, childPackage q sub = _
    unfold childPackage
    split
    · split
      · exact .inl rfl
      · exact .inr ⟨_, rfl⟩
    · exact .inl rfl

/-- The fields of an entity ask for lists and for its parts in other packages. -/
theorem fieldImports_entityArtifact {isRoot : Bool} {sub : Option String} :
    ∀ n ∈ (entityArtifact config q info isRoot sub members).fieldImports,
      n ∈ libraryClasses ∨ ∃ b ∈ outside q (entityParts config q info members),
        n = b.qualifiedName := by
  refine forall_mem_fieldImports (P := fun n => n ∈ libraryClasses ∨ ∃ b ∈ outside q _, n = _)
    (.inl (by decide)) (.inl (by decide)) (.inl (by decide)) ?_
  intro f hf className hclass home hhome hother
  have htarget := mem_references hf (primitive_entityArtifact _ _ _ _ f hf)
  rw [references_eq_parts] at htarget
  obtain ⟨b, hb, hname⟩ := List.mem_map.mp htarget
  obtain rfl : b.package = home :=
    Option.some_inj.mp ((congrArg Prod.fst hname).trans hhome)
  obtain rfl : b.className = className :=
    Option.some_inj.mp ((congrArg Prod.snd hname).trans hclass)
  exact .inr ⟨b, mem_outside.mpr ⟨hb, hother⟩, rfl⟩

theorem importing_entity {isRoot : Bool} {sub : Option String} (hi : info.Usable)
    (hmembers : ∀ m ∈ members, m.Usable)
    (hs : (entityArtifact {} q info isRoot sub members).Spelled)
    (hf : (entityArtifact {} q info isRoot sub members).file {} = .ok file) :
    Importing file (entityArtifact {} q info isRoot sub members)
      (entityParts {} q info members) where
  outline := hs.outline_file hf
  only n hn := (file_imports hf n hn).elim (fun hlib => .inl (List.mem_append_left _ hlib))
    (fieldImports_entityArtifact n)
  all b hb := by
    obtain ⟨hb, hother⟩ := mem_outside.mp hb
    have htarget : b.target ∈ (entityArtifact {} q info isRoot sub members).references := by
      rw [references_eq_parts]
      exact List.mem_map_of_mem hb
    obtain ⟨i, f, hget, hnames⟩ := mem_references_iff.mp htarget
    have hpackage : b.package ≠ "" := by
      rcases package_entityParts b hb with hsame | ⟨s, hbelow⟩
      · exact absurd hsame hother
      · rw [hbelow]
        simp
    refine fieldImports_subset (by cases isRoot <;> rfl) hf ?_
    exact mem_fieldImports (List.mem_of_getElem? hget) hnames
      (isStem_entityParts hi hmembers b hb).ne_empty hpackage hother
  dot_notMem b hb := (isStem_entityParts hi hmembers b (mem_outside.mp hb).1).dot_notMem

/-! ## Ids and serial numbers -/

theorem getLast?_append {s t : String} {c : Char} (h : t.toList.getLast? = some c) :
    (s ++ t).toList.getLast? = some c := by
  rw [String.toList_append, List.getLast?_append, h]
  rfl

theorem last_entityClass (name : String) (isRoot : Bool) :
    (({} : Config).entityClass name isRoot).toList.getLast? = some 'y' := by
  cases isRoot <;> exact getLast?_append (by decide)

/-- An artifact in the value package of an entity whose class ends like an id or a serial number. -/
structure IsCompanionIn (q : String) (b : Artifact) : Prop where
  package : b.package = ({} : Config).valuePackageOf q
  last : b.className.toList.getLast? = some 'd' ∨ b.className.toList.getLast? = some 'N'

theorem isCompanionIn (info : Info) :
    ∀ b ∈ [idArtifact {} q info, serialArtifact {} q info], IsCompanionIn q b :=
  List.forall_mem_cons.mpr ⟨⟨rfl, .inl (getLast?_append (by decide))⟩,
    List.forall_mem_singleton.mpr ⟨rfl, .inr (getLast?_append (by decide))⟩⟩

theorem IsCompanionIn.last_ne {c : Artifact} (hc : IsCompanionIn q c) :
    c.className.toList.getLast? ≠ some 'y' := by
  rcases hc.last with h | h <;> rw [h] <;> decide

theorem IsCompanionIn.unshadowed {c : Artifact} (hc : IsCompanionIn q c) : Unshadowed file c := by
  intro n _ hn hs
  have hlast := libraryClasses_last n hn
  rw [hs] at hlast
  exact absurd hc.last (not_or.mpr hlast)

/-- What an entity names is in its value package or has a class that ends like an entity. -/
theorem placed_entityParts :
    ∀ b ∈ entityParts {} q info members, b.package = ({} : Config).valuePackageOf q ∨
      b.className.toList.getLast? = some 'y' := by
  refine List.forall_mem_cons.mpr ⟨.inl rfl, List.forall_mem_cons.mpr ⟨.inl rfl,
    List.forall_mem_map.mpr fun m _ => ?_⟩⟩
  cases m with
  | value v => exact .inl v.package_artifact
  | entity info isRoot sub members => exact .inr (last_entityClass _ _)

theorem IsCompanionIn.package_eq {b c : Artifact} (hc : IsCompanionIn q c)
    (hb : b ∈ entityParts {} q info members) (h : c.className = b.className) :
    c.package = b.package := by
  rcases placed_entityParts b hb with hp | hlast
  · rw [hc.package, hp]
  · exact absurd (h ▸ hlast) hc.last_ne

/-- The id and the serial number of an entity are never confused with anything. -/
theorem unconfused_entityParts (hlast : a.className.toList.getLast? = some 'y') :
    Unconfused file a (entityParts {} q info members) ↔
      Unconfused file a (members.map (Node.artifactIn {} q)) := by
  have hmem : ∀ b ∈ outside a.package (entityParts {} q info members),
      IsCompanionIn q b ∨ b ∈ outside a.package (members.map (Node.artifactIn {} q)) := by
    intro b hb
    obtain ⟨hb, hother⟩ := mem_outside.mp hb
    rcases List.mem_append.mp (show b ∈ [_, _] ++ members.map _ from hb) with hb | hb
    · exact .inl (isCompanionIn info b hb)
    · exact .inr (mem_outside.mpr ⟨hb, hother⟩)
  have hsub : outside a.package (members.map (Node.artifactIn {} q)) ⊆
      outside a.package (entityParts {} q info members) := by
    intro b hb
    obtain ⟨hb, hother⟩ := mem_outside.mp hb
    exact mem_outside.mpr ⟨List.mem_cons_of_mem _ (List.mem_cons_of_mem _ hb), hother⟩
  constructor
  · intro h
    exact ⟨h.self, fun b hb => h.part b (hsub hb), fun b hb => h.className b (hsub hb),
      fun b hb b' hb' => h.package b (hsub hb) b' (hsub hb')⟩
  · intro h
    refine ⟨h.self, fun b hb => ?_, fun b hb => ?_, fun b hb b' hb' hs => ?_⟩
    · rcases hmem b hb with hc | hb
      · exact hc.unshadowed
      · exact h.part b hb
    · rcases hmem b hb with hc | hb
      · exact fun hs => hc.last_ne (hs ▸ hlast)
      · exact h.className b hb
    · have hpart := (mem_outside.mp hb).1
      have hpart' := (mem_outside.mp hb').1
      rcases hmem b hb with hc | hb
      · exact hc.package_eq hpart' hs
      · rcases hmem b' hb' with hc | hb'
        · exact (hc.package_eq hpart hs.symm).symm
        · exact h.package b hb b' hb' hs

theorem Spot.importing_companions {s : Spot} (hs : a.Spelled) (hf : a.file {} = .ok file)
    (ha : a ∈ s.companions {} package) :
    IsCompanionIn (s.home package) a ∧ Importing file a [] := by
  obtain ⟨trail, node⟩ := s
  cases node with
  | value v => cases ha
  | entity info isRoot sub members =>
    refine ⟨isCompanionIn info a ha, importing_nil hs hf ?_⟩
    rcases List.mem_pair.mp ha with rfl | rfl
    · exact List.forall_mem_singleton.mpr nofun
    · exact List.forall_mem_singleton.mpr nofun

end Schema

open Artifact Schema

/-- The imports of ids and serial numbers are unambiguous. A value object imports classes of
libraries only, whose simple names are different; its own class can have the simple name of one of
them. The imports of an entity are unambiguous exactly if the classes of its members in other
packages, and its own class, are confused neither with each other nor with classes of libraries. -/
theorem imports_unambiguous_iff [Surrogates] {doc : Json} {tree : Schema.Tree} {package : String}
    {artifacts : List Artifact} {a : Artifact} {file : File}
    (hr : Schema.Tree.read doc = .ok tree) (h : tree.artifacts {} package = .ok artifacts)
    (ha : a ∈ artifacts) (hf : a.file {} = .ok file) :
    (a.source = none → file.Unambiguous) ∧
      (∀ v, a.source = some (.value v) →
        (∀ n ∈ file.imports, n ∈ libraryClasses) ∧
          (∀ n ∈ file.imports, ∀ m ∈ file.imports,
            Name.simpleName n = Name.simpleName m → n = m) ∧
          (file.Unambiguous ↔ a.className ∉ file.imports.map Name.simpleName)) ∧
      ∀ info isRoot sub members, a.source = some (.entity info isRoot sub members) →
        (file.Unambiguous ↔
          Unconfused file a (members.map (Node.artifactIn {} a.package))) := by
  obtain ⟨rfl, -⟩ := Tree.artifacts_eq_ok h
  have hspelled := spelled_of_artifacts standard_default (wellFormed_of_read hr) a ha
  refine ⟨fun hsource => ?_, fun v hsource => ?_, fun info isRoot sub members hsource => ?_⟩
  · obtain ⟨s, -, hs⟩ := Tree.exists_companion ha hsource
    obtain ⟨hcompanion, himporting⟩ := Spot.importing_companions hspelled hf hs
    exact himporting.unambiguous_nil.mpr hcompanion.unshadowed
  · obtain ⟨⟨trail, node⟩, hs, rfl, rfl⟩ := Tree.exists_spot ha hsource
    have himporting := importing_nil hspelled hf v.home_field
    have hlib := himporting.mem_libraryClasses
    exact ⟨hlib, fun n hn m hm => eq_of_simpleName_eq (hlib n hn) (hlib m hm),
      himporting.unambiguous_value v.package_artifact⟩
  · obtain ⟨⟨trail, node⟩, hs, rfl, rfl⟩ := Tree.exists_spot ha hsource
    cases (usable_of_read hr).of_mem_spots hs with
    | entity hi _ hsub hmembers =>
      rw [(importing_entity hi hmembers hspelled hf).unambiguous_iff]
      exact unconfused_entityParts (last_entityClass _ _)

theorem libraryClasses_nested : ∀ n ∈ libraryClasses,
    Name.simpleName n ≠ "OrderAggregateRootEntity" ∧ Name.simpleName n ≠ "OrderItemEntity" ∧
      Name.simpleName n ≠ "TotalAmount" := by
  have hall : ∀ s ∈ libraryClasses.map Name.simpleName,
      s ≠ "OrderAggregateRootEntity" ∧ s ≠ "OrderItemEntity" ∧ s ≠ "TotalAmount" := by
    rw [simpleName_libraryClasses]
    decide
  exact fun n hn => hall _ (List.mem_map_of_mem hn)

open scoped Surrogates in
/-- Nothing in the file of the root of the nested tree is ambiguous. -/
theorem imports_unambiguous_nested :
    ∃ artifacts a file, Schema.nested.artifacts {} "shop.domain" = .ok artifacts ∧ a ∈ artifacts ∧
      a.kind = .aggregateRoot ∧ a.file {} = .ok file ∧ file.Unambiguous := by
  have hall : Schema.nested.artifacts {} "shop.domain" =
      .ok (Schema.nested.node.artifacts {} "shop.domain") := rfl
  have ha : entityArtifact {} "shop.domain" nested.info true none nested.members ∈
      Schema.nested.node.artifacts {} "shop.domain" := List.mem_cons_self
  obtain ⟨file, hf⟩ := wellFormed_nested.exists_file ha (not_hasFaultyVariant (by decide))
  refine ⟨_, _, file, hall, ha, rfl, hf, ?_⟩
  have hiff := (imports_unambiguous_iff wellFormed_nested.read_document hall ha hf).2.2
  have hitem : ∀ b ∈ outside "shop.domain"
      (nested.members.map (Node.artifactIn {} "shop.domain")),
        b.className = "OrderItemEntity" ∨ b.className = "TotalAmount" := by decide
  refine (hiff _ _ _ _ rfl).mpr ⟨fun n _ hn hs => ?_, fun b hb n _ hn hs => ?_, ?_, ?_⟩
  · exact absurd (hs.trans (by decide)) (libraryClasses_nested n hn).1
  · rcases hitem b hb with heq | heq
    · exact absurd (hs.trans heq) (libraryClasses_nested n hn).2.1
    · exact absurd (hs.trans heq) (libraryClasses_nested n hn).2.2
  · decide
  · decide

/-- An entity with a value object that takes the simple name of an annotation. -/
def overlapping : Schema.Tree where
  info := ⟨"order", "an order", .single, []⟩
  isRoot := false
  subPackage := none
  members := [.value (.leaf ⟨"getter", "a reader", .single, [.child 0]⟩ .string)]

theorem wellFormed_overlapping : overlapping.WellFormed := by
  refine Schema.Node.FormedAt.entity (by decide) nofun (by decide) fun i m hm => ?_
  match i, hm with
  | 0, rfl => exact .value (.leaf (by decide) _)

open scoped Surrogates in
/-- The entity imports two classes with one simple name, and the value object imports a class with
the simple name of its own. -/
theorem imports_overlapping :
    ∃ artifacts, Schema.Tree.read overlapping.document = .ok overlapping ∧
      overlapping.artifacts {} "shop" = .ok artifacts ∧
      (∃ a ∈ artifacts, ∃ file, a.file {} = .ok file ∧ "lombok.Getter" ∈ file.imports ∧
        "shop.valueobject.Getter" ∈ file.imports ∧ ¬ file.Unambiguous) ∧
      ∃ a ∈ artifacts, ∃ file, a.file {} = .ok file ∧ "lombok.Getter" ∈ file.imports ∧
        a.qualifiedName = "shop.valueobject.Getter" ∧ ¬ file.Unambiguous := by
  have hall : overlapping.artifacts {} "shop" = .ok (overlapping.node.artifacts {} "shop") := rfl
  have hentity : entityArtifact {} "shop" overlapping.info false none overlapping.members ∈
      overlapping.node.artifacts {} "shop" := List.mem_cons_self
  have hvalue : (ValueObject.leaf ⟨"getter", "a reader", .single, [.child 0]⟩ .string).artifact
      "shop.valueobject" ∈ overlapping.node.artifacts {} "shop" := by
    simp [overlapping, Schema.Tree.node, Schema.Node.artifacts, Schema.artifactsOfMembers,
      Schema.ValueObject.artifacts, Config.valuePackageOf]
  have hsame : Name.simpleName "lombok.Getter" = Name.simpleName "shop.valueobject.Getter" := by
    decide
  have hne : "lombok.Getter" ≠ "shop.valueobject.Getter" := by decide
  refine ⟨_, wellFormed_overlapping.read_document, hall, ⟨_, hentity, ?_⟩, ⟨_, hvalue, ?_⟩⟩
  · obtain ⟨file, hf, hlibrary, hown⟩ :
        ∃ file, (entityArtifact {} "shop" overlapping.info false none overlapping.members).file {} =
          .ok file ∧ "lombok.Getter" ∈ file.imports ∧ "shop.valueobject.Getter" ∈ file.imports :=
      ⟨_, rfl, mem_imports_fileOf.mpr (by decide), mem_imports_fileOf.mpr (by decide)⟩
    exact ⟨file, hf, hlibrary, hown, fun hu => hne (hu.imports _ hlibrary _ hown hsame)⟩
  · exact ⟨_, rfl, mem_imports_fileOf.mpr (by decide), by decide, fun hu =>
      hne (hu.declared _ (mem_imports_fileOf.mpr (by decide)) hsame)⟩

end DomainCodegen
