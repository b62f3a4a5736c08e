import DomainCodegen.Proofs.Artifact.Contents
import DomainCodegen.Proofs.Java.ReadBack

/-!
# Reading artifacts back

Every artifact of a well-formed tree spells its names as words (`Schema.spelled_of_artifacts`). What
is read from the text of such an artifact, if its package is legible, is the artifact again: its
package, its class, its fields with their types, and its variants with their meanings
(`outline_render`). Nothing checks a package on the way to a file, and one with a semicolon is not
read back (`package_lost_at_semicolon`).
-/

namespace DomainCodegen

open Java

variable {s t : String}

/-! ## Names and packages -/

theorem Java.isName_of_getLast? (h : Name.isIdentifier s = true)
    (hl : s.toList.getLast? ≠ some '\n') : IsName s where
  identifier := h
  parts := by
    have hparts := Name.isIdentifierPart_of_hasIdentifierForm (Bool.and_eq_true_iff.mp h).1
    rwa [Name.matched_eq_self hl] at hparts

theorem Java.isName_of_isAlphanum (h : Name.isIdentifier s = true)
    (hs : ∀ c ∈ s.toList, c.isAlphanum = true) : IsName s :=
  isName_of_getLast? h (Name.getLast?_ne_of_forall (by decide) hs)

/-- A text in which no comment and no literal opens and no declaration ends. -/
def Contained (s : String) : Prop := ∀ c ∈ s.toList, c ≠ '"' ∧ c ≠ '/' ∧ c ≠ ';'

theorem contained_append (hs : Contained s) (ht : Contained t) : Contained (s ++ t) := by
  unfold Contained
  rw [String.toList_append, List.forall_mem_append]
  exact ⟨hs, ht⟩

theorem Contained.lit {cs : List Char} (h : (cs.all fun c => c ≠ '"' ∧ c ≠ '/' ∧ c ≠ ';') = true) :
    Contained (String.ofList cs) := by
  rw [Contained, String.toList_ofList]
  exact fun c hc => of_decide_eq_true (List.all_eq_true.mp h c hc)

theorem Contained.quiet (h : Contained s) : Quiet s := fun c hc => ⟨(h c hc).1, (h c hc).2.1⟩

theorem Contained.semicolon_notMem (h : Contained s) : ';' ∉ s.toList := fun hm => (h _ hm).2.2 rfl

theorem Java.IsName.contained (h : IsName s) : Contained s := by
  intro c hc
  have hpart := h.parts c hc
  refine ⟨?_, ?_, ?_⟩ <;> (rintro rfl; revert hpart; decide)

/-- A package that can be read back from its declaration. -/
def Legible (package : String) : Prop :=
  ∀ c ∈ package.toList, isSpace c = false ∧ c ≠ '"' ∧ c ≠ '/' ∧ c ≠ ';'

theorem Legible.lit {cs : List Char}
    (h : (cs.all fun c => isSpace c = false ∧ c ≠ '"' ∧ c ≠ '/' ∧ c ≠ ';') = true) :
    Legible (String.ofList cs) := by
  rw [Legible, String.toList_ofList]
  exact fun c hc => of_decide_eq_true (List.all_eq_true.mp h c hc)

theorem Legible.contained (h : Legible s) : Contained s := fun c hc => (h c hc).2

theorem contained_of_isSegment {piece : List Char} (h : PackageName.isSegment piece = true) :
    ∀ c ∈ piece, c ≠ '"' ∧ c ≠ '/' ∧ c ≠ ';' := by
  intro c hc
  have hlow := forall_mem_of_isSegment h c hc
  refine ⟨?_, ?_, ?_⟩ <;> (rintro rfl; revert hlow; decide)

theorem contained_of_isValid (h : PackageName.isValid s = true) : Contained s := by
  have hall : ∀ piece ∈ (Name.matched s.toList).splitOn '.', PackageName.isSegment piece = true :=
    List.all_eq_true.mp h
  have hmatched : ∀ c ∈ Name.matched s.toList, c ≠ '"' ∧ c ≠ '/' ∧ c ≠ ';' := by
    intro c hc
    have hmem : c ∈ ((Name.matched s.toList).splitOn '.').flatMap fun piece => '.' :: piece := by
      rw [flatMap_splitOn]
      exact List.mem_cons_of_mem _ hc
    obtain ⟨piece, hp, hc⟩ := List.mem_flatMap.mp hmem
    rcases List.mem_cons.mp hc with rfl | hc
    · decide
    · exact contained_of_isSegment (hall piece hp) c hc
  intro c hc
  rcases Name.mem_matched hc with hc | rfl
  · exact hmatched c hc
  · decide

/-! ## Artifacts that spell their names -/

namespace Artifact

variable {a : Artifact} {f : Field}

/-- A field continues the package of the artifact that holds it. -/
def ExtendsPackage (package home : String) : Prop := ∃ rest, home = package ++ rest ∧ Contained rest

/-- A field of an artifact in a package, whose names are words. -/
structure Field.Spelled (package : String) (f : Field) : Prop where
  name : IsName f.name
  className : ∀ name ∈ f.type.className, IsName name
  package : ∀ home ∈ f.type.package, ExtendsPackage package home

/-- An artifact whose names are words, and that has variants and the field for their meaning if and
only if it is an enumeration. -/
structure Spelled (a : Artifact) : Prop where
  className : IsName a.className
  idClass : ∀ name ∈ a.idClass, IsName name
  fields : ∀ f ∈ a.fields, f.Spelled a.package
  constants : ∀ v ∈ a.variants, Text.stripped v.constant = v.constant
  variants : a.kind ≠ .enumeration → a.variants = []
  meaning : a.kind = .enumeration →
    a.fields.map (fun f => (f.type.use, f.name)) = [({ name := "String" }, "businessMeaning")]

end Artifact

namespace Schema

open Artifact

variable {config : Config} {package : String} {place : Place} {info : Info} {v : ValueObject}
  {node : Node}

theorem Info.FormedAt.isName_className (h : info.FormedAt place) :
    IsName (Name.className info.name) :=
  isName_of_isAlphanum h.classAllowed (Name.isAlphanum_of_mem_className h.name_stripped)

theorem Info.FormedAt.isName_fieldName (h : info.FormedAt place) :
    IsName (Name.fieldName info.name) :=
  isName_of_isAlphanum h.fieldAllowed (Name.isAlphanum_of_mem_fieldName h.name_stripped)

theorem isName_append (h : Name.isIdentifier s = true) (hs : ∀ c ∈ s.toList, c.isAlphanum = true)
    (ht : Name.IsSuffix t) : IsName (s ++ t) := by
  refine isName_of_isAlphanum (Name.isIdentifier_append h hs ht) ?_
  rw [String.toList_append, List.forall_mem_append]
  exact ⟨hs, ht.alphanum⟩

theorem Info.FormedAt.isName_class (h : info.FormedAt place) {suffix : String}
    (hs : Name.IsSuffix suffix) : IsName (Name.className info.name ++ suffix) :=
  isName_append h.classAllowed (Name.isAlphanum_of_mem_className h.name_stripped) hs

theorem Info.FormedAt.isName_field (h : info.FormedAt place) {suffix : String}
    (hs : Name.IsSuffix suffix) : IsName (Name.fieldName info.name ++ suffix) :=
  isName_append h.fieldAllowed (Name.isAlphanum_of_mem_fieldName h.name_stripped) hs

theorem isName_value : IsName "value" := isName_of_getLast? isIdentifier_value (by decide)

theorem extendsPackage_self (package : String) : ExtendsPackage package package :=
  ⟨"", String.append_empty.symm, nofun⟩

theorem extendsPackage_valuePackageOf (hc : config.Standard) (package : String) :
    ExtendsPackage package (config.valuePackageOf package) := by
  refine ⟨"." ++ config.valuePackage, String.append_assoc, ?_⟩
  rw [hc.valuePackage]
  exact contained_append (.lit (by decide)) (.lit (by decide))

theorem extendsPackage_childPackage {sub : Option String}
    (hsub : ∀ s ∈ sub, PackageName.isValid s = true) (package : String) :
    ExtendsPackage package (childPackage package sub) := by
  unfold childPackage
  split
  · next s =>
    split
    · exact extendsPackage_self package
    · exact ⟨"." ++ s, String.append_assoc,
        contained_append (.lit (by decide)) (contained_of_isValid (hsub s rfl))⟩
  · exact extendsPackage_self package

theorem spelled_reference {className home : String} (hi : info.FormedAt place)
    (hc : IsName className) (hp : ExtendsPackage package home) :
    (Artifact.reference info className home).Spelled package where
  name := hi.isName_fieldName
  className _ h := Option.some_inj.mp h ▸ hc
  package _ h := Option.some_inj.mp h ▸ hp

theorem spelled_primitive {f : Field} (hn : IsName f.name) (hc : f.type.className = none)
    (hp : f.type.package = none) : f.Spelled package where
  name := hn
  className := by
    rw [hc]
    exact nofun
  package := by
    rw [hp]
    exact nofun

theorem spelled_wrapper {className description : String} {kind : Artifact.Kind}
    {primitive : Primitive} (hc : IsName className) (hk : kind ≠ .enumeration) :
    (wrapper package className kind description primitive).Spelled where
  className := hc
  idClass := nofun
  fields := List.forall_mem_singleton.mpr (spelled_primitive isName_value rfl rfl)
  constants := nofun
  variants _ := rfl
  meaning h := absurd h hk

theorem spelled_composite {parts : List ValueObject} (hi : info.FormedAt place)
    (hparts : ∀ part ∈ parts, ∃ place, part.info.FormedAt place) :
    (ValueObject.artifact package (.composite info parts)).Spelled where
  className := hi.isName_className
  idClass := nofun
  fields := by
    refine List.forall_mem_map.mpr fun part hp => ?_
    obtain ⟨there, hpart⟩ := hparts part hp
    exact spelled_reference hpart hpart.isName_className (extendsPackage_self package)
  constants := nofun
  variants _ := rfl
  meaning := nofun

theorem spelled_enumeration {variants : List Variant} (hi : info.FormedAt place)
    (hv : ∀ v ∈ variants, v.Stripped) :
    (ValueObject.artifact package (.enumeration info variants)).Spelled where
  className := hi.isName_className
  idClass := nofun
  fields := by
    refine List.forall_mem_singleton.mpr (spelled_primitive ?_ rfl rfl)
    exact isName_of_getLast? (by decide) (by decide)
  constants v hmem := (hv v hmem).constant
  variants h := absurd rfl h
  meaning _ := rfl

theorem spelled_of_valueObject (hv : v.FormedAt place) : ∀ a ∈ v.artifacts package, a.Spelled := by
  induction hv with
  | @leaf place info hi primitive =>
    intro a ha
    obtain rfl : a = _ := by simpa [ValueObject.artifacts] using ha
    have hwrapper : (wrapper package (Name.className info.name) .valueObject info.description
        primitive).Spelled := spelled_wrapper hi.isName_className (by decide)
    exact { hwrapper with }
  | composite hi hne hparts ih =>
    intro a ha
    rw [ValueObject.artifacts, List.mem_cons, mem_artifactsOfParts] at ha
    rcases ha with rfl | ⟨part, hp, ha⟩
    · refine spelled_composite hi fun part hp => ?_
      obtain ⟨i, hget⟩ := List.mem_iff_getElem?.mp hp
      exact ⟨_, (hparts i part hget).head⟩
    · obtain ⟨i, hget⟩ := List.mem_iff_getElem?.mp hp
      exact ih i part hget a ha
  | enumeration hi hne hvariants =>
    intro a ha
    obtain rfl : a = _ := by simpa [ValueObject.artifacts] using ha
    exact spelled_enumeration hi hvariants

theorem isName_entityClass (hc : config.Standard) (hi : info.FormedAt place) (isRoot : Bool) :
    IsName (config.entityClass info.name isRoot) := by
  unfold Config.entityClass
  rw [hc.rootSuffix, hc.entitySuffix]
  cases isRoot
  · exact hi.isName_class (by decide)
  · exact hi.isName_class (by decide)

theorem isName_idClass (hc : config.Standard) (hi : info.FormedAt place) :
    IsName (config.idClass info.name) := by
  unfold Config.idClass
  rw [hc.idSuffix]
  exact hi.isName_class (by decide)

theorem isName_serialClass (hc : config.Standard) (hi : info.FormedAt place) :
    IsName (config.serialClass info.name) := by
  unfold Config.serialClass
  rw [hc.serialSuffix]
  exact hi.isName_class (by decide)

theorem spelled_companionField {suffix : String} {role : Role} {companion : Artifact}
    (hi : info.FormedAt place) (hs : Name.IsSuffix suffix) (hc : IsName companion.className)
    (hp : ExtendsPackage package companion.package) :
    (companionField info suffix role companion).Spelled package where
  name := hi.isName_field hs
  className _ h := Option.some_inj.mp h ▸ hc
  package _ h := Option.some_inj.mp h ▸ hp

theorem spelled_memberReference (hc : config.Standard) (hn : node.FormedAt place) :
    (node.reference config package).Spelled package := by
  cases hn with
  | value hv =>
    exact spelled_reference hv.head hv.head.isName_className
      (extendsPackage_valuePackageOf hc package)
  | entity hi hsub hroot hmembers =>
    exact spelled_reference hi (isName_entityClass hc hi _)
      (extendsPackage_childPackage (fun s hs => (hsub s hs).2) package)

theorem spelled_entityArtifact (hc : config.Standard) (hi : info.FormedAt place) {isRoot : Bool}
    {sub : Option String} {members : List Node}
    (hmembers : ∀ m ∈ members, ∃ place, m.FormedAt place) :
    (entityArtifact config package info isRoot sub members).Spelled where
  className := isName_entityClass hc hi isRoot
  idClass _ h := Option.some_inj.mp h ▸ isName_idClass hc hi
  fields := by
    have hvalue := extendsPackage_valuePackageOf hc package
    have hid : Name.IsSuffix config.idSuffix := hc.idSuffix ▸ (by decide)
    have hserial : Name.IsSuffix config.serialSuffix := hc.serialSuffix ▸ (by decide)
    refine List.forall_mem_cons.mpr
      ⟨spelled_companionField hi hid (isName_idClass hc hi) hvalue, List.forall_mem_cons.mpr
        ⟨spelled_companionField hi hserial (isName_serialClass hc hi) hvalue,
          List.forall_mem_map.mpr fun m hm => ?_⟩⟩
    obtain ⟨there, hm⟩ := hmembers m hm
    exact spelled_memberReference hc hm
  constants := nofun
  variants _ := rfl
  meaning := by cases isRoot <;> exact nofun

/-- Every artifact of a well-formed node spells its names. -/
theorem spelled_of_artifacts (hc : config.Standard) (hn : node.FormedAt place) :
    ∀ a ∈ node.artifacts config package, a.Spelled := by
  induction hn generalizing package with
  | value hv => exact spelled_of_valueObject hv
  | entity hi hsub hroot hmembers ih =>
    intro a ha
    rw [Node.artifacts, List.mem_cons, List.mem_cons, List.mem_cons, mem_artifactsOfMembers] at ha
    rcases ha with rfl | rfl | rfl | ⟨m, hm, ha⟩
    · refine spelled_entityArtifact hc hi fun m hm => ?_
      obtain ⟨i, hget⟩ := List.mem_iff_getElem?.mp hm
      exact ⟨_, hmembers i m hget⟩
    · exact spelled_wrapper (isName_idClass hc hi) (by decide)
    · exact spelled_wrapper (isName_serialClass hc hi) (by decide)
    · obtain ⟨i, hget⟩ := List.mem_iff_getElem?.mp hm
      exact ih i m hget a ha

end Schema

/-! ## Readable files of artifacts -/

namespace Artifact

variable {a : Artifact} {f : Field} {file : File} {d : Declaration}

theorem ExtendsPackage.contained {package home : String} (h : ExtendsPackage package home)
    (hp : Legible package) : Contained home := by
  obtain ⟨rest, rfl, hrest⟩ := h
  exact contained_append hp.contained hrest

theorem Spelled.quietClasses (h : a.Spelled) : a.QuietClasses where
  idClass name hn := (h.idClass name hn).contained.quiet
  fieldClass f hf name hn := ((h.fields f hf).className name hn).contained.quiet

theorem Spelled.quietNames (h : a.Spelled) (hp : Legible a.package) : a.QuietNames where
  package := hp.contained.quiet
  idClass := h.quietClasses.idClass
  fieldClass := h.quietClasses.fieldClass
  fieldPackage f hf home hn := (((h.fields f hf).package home hn).contained hp).quiet

/-- The default classes have simple names. -/
theorem isName_simpleClass : ∀ c ∈ importedClasses {}, IsName (simpleClass c) := by
  have hall : ∀ c ∈ importedClasses {}, Name.isIdentifier (simpleClass c) = true ∧
      (simpleClass c).toList.getLast? ≠ some '\n' := by decide
  exact fun c hc => isName_of_getLast? (hall c hc).1 (hall c hc).2

theorem isName_primitiveClass (p : Schema.Primitive) : IsName (primitiveClass p) := by
  cases p <;> exact isName_of_getLast? (by decide) (by decide)

theorem isName_object : IsName "Object" := isName_of_getLast? (by decide) (by decide)

theorem Field.Spelled.isName_use {package : String} (h : f.Spelled package) :
    IsName f.type.use.name := by
  unfold TypeRef.use
  split
  · exact isName_primitiveClass _
  · cases hp : present f.type.className with
    | none => exact isName_object
    | some name => exact h.className name (mem_of_present hp)

theorem Field.Spelled.readable_member {package : String} (h : f.Spelled package) :
    f.member.Readable :=
  ⟨h.isName_use, h.name⟩

theorem Field.Spelled.isName_className {package : String} (h : f.Spelled package) :
    IsName (f.type.className.getD "None") := by
  cases hn : f.type.className with
  | none => exact isName_of_getLast? (by decide) (by decide)
  | some name => exact h.className name hn

theorem Spelled.isName_constant (h : a.Spelled) (hv : checkVariants [] 0 a.variants = .ok ()) :
    ∀ v ∈ a.variants, IsName v.constant := fun v hm =>
  isName_of_getLast? (isIdentifier_of_checkVariants hv v hm)
    (Name.getLast?_ne_of_stripped (h.constants v hm))

/-- A class and one of its members. -/
theorem calm_selection {c member : String} (hc : IsName c) (hm : Calm member) :
    Calm (c ++ "." ++ member) := by
  have hdot : Apart "." := .lit (by decide)
  exact hdot.joins hc.calm hm

theorem DeclaredAs.readable (hd : a.DeclaredAs {} d) (h : a.Spelled) : d.Readable := by
  have hinterface : IsName (simpleClass ({} : Config).valueInterface) :=
    isName_simpleClass _ (by simp [importedClasses, valueClasses])
  cases hd with
  | @entity _ idClass serial hid hserial =>
    exact
      { name := h.className
        base := isName_simpleClass _ baseClass_mem
        idClass := h.idClass idClass (mem_of_present hid)
        members := List.forall_mem_map.mpr fun f hf => (h.fields f hf).readable_member
        serialField := (h.fields serial hserial).name
        serialClass := (h.fields serial hserial).isName_className
        serialExpression := .lit (by decide) }
  | value hk =>
    exact
      { name := h.className
        interface := hinterface
        members := List.forall_mem_map.mpr fun f hf =>
          ⟨(h.fields f hf).isName_use, (h.fields f hf).name⟩
        emptyCheck := calm_selection
          (isName_simpleClass _ (by simp [importedClasses, valueClasses])) (.lit (by decide))
        exception := (isName_simpleClass _ (by simp [importedClasses, valueClasses])).calm
        resultCode := calm_selection
          (isName_simpleClass _ (by simp [importedClasses, valueClasses])) (.lit (by decide)) }
  | enumeration hk hne hv =>
    exact
      { name := h.className
        interface := hinterface
        constants := List.forall_mem_map.mpr (h.isName_constant hv)
        constants_ne_nil := mt List.map_eq_nil_iff.mp hne }

theorem contained_libraryImports : ∀ name ∈ libraryImports {}, Contained name := by
  simp only [libraryImports, importedClasses, valueClasses, List.map_cons, List.map_nil,
    List.cons_append, List.nil_append, ClassSetting.text, List.forall_mem_cons]
  and_intros
  all_goals first | exact .lit (by decide) | exact List.forall_mem_nil _

theorem Spelled.contained_fieldImports (h : a.Spelled) (hp : Legible a.package) :
    ∀ name ∈ a.fieldImports, Contained name := by
  refine forall_mem_fieldImports (.lit (by decide)) (.lit (by decide)) (.lit (by decide)) ?_
  intro f hf className hc home hh _
  have hhome := ((h.fields f hf).package home hh).contained hp
  have hclass := ((h.fields f hf).className className hc).contained
  exact contained_append (contained_append hhome (.lit (by decide))) hclass

/-- What an artifact declares. -/
def outline (a : Artifact) : Outline :=
  ⟨a.package, a.className, a.fields.map fun f => (f.type.use, f.name),
    a.variants.map fun v => (v.constant, v.meaning)⟩

theorem DeclaredAs.outline_eq (hd : a.DeclaredAs {} d) (h : a.Spelled) :
    d.outline a.package = a.outline := by
  have hnone : a.kind ≠ .enumeration → a.outline =
      ⟨a.package, a.className, a.fields.map fun f => (f.type.use, f.name), []⟩ := by
    intro hk
    rw [outline, h.variants hk]
    rfl
  cases hd with
  | entity hk hid hserial =>
    rw [hnone hk, Declaration.outline, List.map_map]
    rfl
  | value hk =>
    rw [hnone hk, Declaration.outline, List.map_map]
    rfl
  | enumeration hk hne hv =>
    rw [outline, h.meaning hk]
    rfl

theorem Spelled.outline_file (h : a.Spelled) (hf : a.file {} = .ok file) :
    file.outline = a.outline := by
  obtain ⟨-, -, imports, declaration, rfl, hdeclared, -⟩ := fileOrCause_eq_ok (file_eq_ok.mp hf)
  exact hdeclared.outline_eq h

theorem Spelled.outline_text {text : String} (h : a.Spelled) (hp : Legible a.package)
    (hr : a.render {} = .ok text) : Java.outline text = some a.outline := by
  cases hf : a.fileOrCause {} with
  | error cause =>
    rw [render_eq_error hf] at hr
    cases hr
  | ok file =>
    rw [render_eq_ok hf] at hr
    cases hr
    obtain ⟨-, -, imports, declaration, heq, hdeclared, himports⟩ := fileOrCause_eq_ok hf
    have hplain : file.Plain := plain_of_quiet quiet_default (h.quietNames hp) hf
    have hreadable : file.Readable := by
      rw [heq]
      exact
        { package := fun c hc => ⟨(hp c hc).1, (hp c hc).2.2.2⟩
          imports := fun name hn => by
            have hname : Contained name := (himports name (mem_imports_fileOf.mp hn)).elim
              (contained_libraryImports name) (h.contained_fieldImports hp name)
            exact hname.semicolon_notMem
          declaration := hdeclared.readable h }
    rw [hreadable.outline_print hplain, ← hdeclared.outline_eq h, heq]
    rfl

end Artifact

/-! ## What is generated for a schema -/

/-- What is generated for a schema is read back from its text: the package, the class, one field
with its type for each field in order, and the variants of an enumeration with their meanings as
they are. -/
theorem outline_render [Surrogates] {doc : Json} {tree : Schema.Tree} {package text : String}
    {artifacts : List Artifact} {a : Artifact} (hr : Schema.Tree.read doc = .ok tree)
    (h : tree.artifacts {} package = .ok artifacts) (ha : a ∈ artifacts) (hp : Legible a.package)
    (ht : a.render {} = .ok text) :
    outline text = some
      { package := a.package
        name := a.className
        fields := a.fields.map fun f => (f.type.use, f.name)
        constants := a.variants.map fun v => (v.constant, v.meaning) } := by
  obtain ⟨rfl, -⟩ := Schema.Tree.artifacts_eq_ok h
  have hspelled : a.Spelled :=
    Schema.spelled_of_artifacts standard_default (Schema.wellFormed_of_read hr) a ha
  exact hspelled.outline_text hp ht

/-- A state whose meanings have quotes, backslashes, comment ends and line breaks. -/
def state : Schema.ValueObject :=
  .enumeration ⟨"state", "how it is", .multi, [.child 0]⟩
    [⟨"OPEN", "\"*/\\"⟩, ⟨"PAID", "a\n\\b"⟩]

def stated : Schema.Tree where
  info := ⟨"order", "an order", .single, []⟩
  isRoot := true
  subPackage := none
  members := [.value state]

theorem formedAt_state : state.FormedAt [.child 0] := .enumeration (by decide) nofun (by decide)

theorem wellFormed_stated : stated.WellFormed := by
  refine Schema.Node.FormedAt.entity (by decide) nofun (by decide) fun i m hm => ?_
  match i, hm with
  | 0, rfl => exact .value formedAt_state

theorem exists_render_state : ∃ text, (state.artifact "shop.valueobject").render {} = .ok text := by
  have hid : Name.isIdentifier "OPEN" = true ∧ Name.isIdentifier "PAID" = true := by decide
  have hvariants : Artifact.checkVariants [] 0 (state.artifact "shop.valueobject").variants =
      .ok () := by
    simp [state, Schema.ValueObject.artifact, Artifact.checkVariants, hid.1, hid.2]
  have hcomplete : (state.artifact "shop.valueobject").Complete :=
    Schema.complete_of_valueObject formedAt_state _ List.mem_cons_self
  have hn : ∀ c ∈ Artifact.importedClasses {}, ∃ name, c = .named name := by
    simp [Artifact.importedClasses, Artifact.valueClasses]
  rcases hcomplete.render hn with ⟨htext, -⟩ | ⟨-, -, before, v, after, heq, hfaulty⟩
  · exact htext
  · exact absurd hfaulty (Artifact.checkVariants_eq_ok hvariants heq).2

open scoped Surrogates in
/-- The state is read back with its meanings. -/
theorem outline_render_state :
    ∃ text, (state.artifact "shop.valueobject").render {} = .ok text ∧
      outline text = some
        { package := "shop.valueobject", name := "State"
          fields := [({ name := "String" }, "businessMeaning")]
          constants := [("OPEN", "\"*/\\"), ("PAID", "a\n\\b")] } := by
  obtain ⟨text, htext⟩ := exists_render_state
  have hlegible : Legible "shop.valueobject" := .lit (by decide)
  have hmem : state.artifact "shop.valueobject" ∈ stated.node.artifacts {} "shop" := by
    simp [stated, Schema.Tree.node, Schema.Node.artifacts, Schema.artifactsOfMembers,
      Schema.ValueObject.artifacts, state, Config.valuePackageOf]
  have hall : stated.artifacts {} "shop" = .ok (stated.node.artifacts {} "shop") := rfl
  exact ⟨text, htext, outline_render wellFormed_stated.read_document hall hmem hlegible htext⟩

/-- The technical id of an order in a package with a semicolon. -/
def semicolonId : Artifact := Schema.idArtifact {} "p;q" Schema.sampleTree.info

theorem package_semicolonId : semicolonId.package = "p;q.valueobject" := by decide

theorem quietNames_semicolonId : semicolonId.QuietNames where
  package := package_semicolonId ▸ .lit (by decide)
  idClass := nofun
  fieldClass := List.forall_mem_singleton.mpr nofun
  fieldPackage := List.forall_mem_singleton.mpr nofun

theorem exists_file_semicolonId : ∃ file, semicolonId.fileOrCause {} = .ok file := by
  have hn : ∀ c ∈ Artifact.importedClasses {}, ∃ name, c = .named name := by
    simp [Artifact.importedClasses, Artifact.valueClasses]
  have hid : Name.isIdentifier semicolonId.className = true := by decide
  have hcomplete : semicolonId.Complete := Schema.complete_wrapper hid rfl (by decide)
  obtain ⟨file, hfile⟩ := hcomplete.valueFile hn
  rw [Artifact.fileOrCause, hcomplete.checkAllNames]
  exact ⟨file, hfile⟩

theorem readTokens_semicolon {ts : List Token} {o : Outline}
    (h : readTokens (.word "package".toList :: (textTokens "p;q.valueobject" ++ ts)) = some o) :
    o.package = "p" := by
  have htokens : textTokens "p;q.valueobject" = [.word ['p'], .symbol ';', .word ['q'], .symbol '.',
      .word ['v', 'a', 'l', 'u', 'e', 'o', 'b', 'j', 'e', 'c', 't']] :=
    textTokens_lit.trans (by decide)
  rw [package_of_readTokens h, htokens]
  rfl

open scoped Surrogates in
/-- Nothing checks a package on the way to a file. The declaration of one with a semicolon ends too
early, and what is read has another package. -/
theorem package_lost_at_semicolon :
    ∃ artifacts text, Schema.Tree.read Schema.sample = .ok Schema.sampleTree ∧
      Schema.sampleTree.artifacts {} "p;q" = .ok artifacts ∧ semicolonId ∈ artifacts ∧
      semicolonId.render {} = .ok text ∧
      ∀ o, outline text = some o → o.package ≠ semicolonId.package := by
  obtain ⟨file, hfile⟩ := exists_file_semicolonId
  have hmem : semicolonId ∈ Schema.sampleTree.node.artifacts {} "p;q" :=
    List.mem_cons_of_mem _ List.mem_cons_self
  have hplain := Artifact.plain_of_quiet Artifact.quiet_default quietNames_semicolonId hfile
  obtain ⟨-, -, imports, declaration, heq, -, -⟩ := Artifact.fileOrCause_eq_ok hfile
  have hpackage : file.package = "p;q.valueobject" := by
    rw [heq, ← package_semicolonId]
    rfl
  refine ⟨_, _, Schema.read_sample, rfl, hmem, Artifact.render_eq_ok hfile, fun o ho => ?_⟩
  rw [hplain.outline_print, hpackage] at ho
  rw [readTokens_semicolon ho, package_semicolonId]
  decide

end DomainCodegen
