import DomainCodegen.Java.Render
import DomainCodegen.Proofs.Artifact.Naming
import DomainCodegen.Proofs.Name
import DomainCodegen.Proofs.Schema.Document

/-!
# What can fail when an artifact is rendered

Rendering checks names, fields, companions and variants. Every artifact of a well-formed tree passes
all of these checks but the one on its variants (`complete_of_artifacts`), since reading never looks
into a variant. So rendering fails exactly for the enumerations with a faulty variant
(`render_fails_iff`).
-/

namespace DomainCodegen

namespace Artifact

variable {config : Config} {a : Artifact} {classes : List ClassSetting}

/-! ## Classes and names -/

/-- The settings of the classes that files import. -/
def importedClasses (config : Config) : List ClassSetting :=
  config.rootBase :: config.entityBase :: config.serialGenerator :: valueClasses config

theorem checkClasses_of_named (h : ∀ c ∈ classes, ∃ name, c = .named name) :
    checkClasses classes = .ok () := by
  have hcontainer : classes.findSome? ClassSetting.container? = none := by
    rw [List.findSome?_eq_none_iff]
    intro c hc
    obtain ⟨name, rfl⟩ := h c hc
    rfl
  have hscalar : classes.findSome? ClassSetting.scalar? = none := by
    rw [List.findSome?_eq_none_iff]
    intro c hc
    obtain ⟨name, rfl⟩ := h c hc
    rfl
  rw [checkClasses, hcontainer, hscalar]

theorem checkNames_of_forall {fields : List Field} (index : Nat)
    (h : ∀ f ∈ fields, Name.isIdentifier f.name = true) : a.checkNames index fields = .ok () := by
  induction fields generalizing index with
  | nil => rfl
  | cons f r ih =>
    obtain ⟨hf, hr⟩ := List.forall_mem_cons.mp h
    rw [checkNames, if_pos hf, ih (index + 1) hr]

/-! ## Variants -/

/-- What keeps a variant out of a file, given the variants before it: its name is no identifier, or
is the name of one of them, or it has no meaning. -/
def IsFaulty (before : List Schema.Variant) (v : Schema.Variant) : Prop :=
  Name.isIdentifier v.constant = false ∨ v.constant ∈ before.map (·.constant) ∨ v.meaning = ""

/-- An enumeration with a variant that has a fault. -/
def HasFaultyVariant (a : Artifact) : Prop :=
  a.kind = .enumeration ∧
    ∃ before v after, a.variants = before ++ v :: after ∧ IsFaulty before v

theorem not_hasFaultyVariant {a : Artifact} (h : a.kind ≠ .enumeration) : ¬ a.HasFaultyVariant :=
  fun hbad => h hbad.1

theorem isFaulty_cons {before : List Schema.Variant} {b v : Schema.Variant} :
    IsFaulty (b :: before) v ↔ v.constant = b.constant ∨ IsFaulty before v := by
  unfold IsFaulty
  rw [List.map_cons, List.mem_cons]
  tauto

theorem checkVariants_eq_ok {seen : List String} {index : Nat} {variants : List Schema.Variant}
    (h : checkVariants seen index variants = .ok ()) {before after : List Schema.Variant}
    {v : Schema.Variant} (hv : variants = before ++ v :: after) :
    v.constant ∉ seen ∧ ¬ IsFaulty before v := by
  induction variants generalizing seen index before with
  | nil => simp at hv
  | cons w r ih =>
    unfold checkVariants at h
    split at h
    · cases h
    next hid =>
    split at h
    · cases h
    next hseen =>
    split at h
    · cases h
    next hmeaning =>
    have hid' : Name.isIdentifier w.constant = true := by simpa using hid
    have hseen' : w.constant ∉ seen := by simpa using hseen
    cases before with
    | nil =>
      cases hv
      refine ⟨hseen', ?_⟩
      rintro (hf | hf | hf)
      · rw [hid'] at hf
        cases hf
      · cases hf
      · exact hmeaning hf
    | cons b before =>
      cases hv
      obtain ⟨hne, hrest⟩ := ih h rfl
      rw [List.mem_cons, not_or] at hne
      refine ⟨hne.2, fun hf => ?_⟩
      rcases isFaulty_cons.mp hf with hf | hf
      · exact hne.1 hf
      · exact hrest hf

/-- A check of variants that fails has found a fault, which lies in the artifact. -/
theorem checkVariants_eq_error {before variants : List Schema.Variant} {seen : List String}
    {index : Nat} {cause : RenderCause} (hseen : ∀ s ∈ seen, s ∈ before.map (·.constant))
    (h : checkVariants seen index variants = .error cause) :
    cause.isOfArtifact = true ∧
      ∃ between v after, variants = between ++ v :: after ∧ IsFaulty (before ++ between) v := by
  induction variants generalizing seen index before with
  | nil => cases h
  | cons w r ih =>
    unfold checkVariants at h
    have here : ∀ {P : Prop}, P → IsFaulty before w → P ∧
        ∃ between v after, w :: r = between ++ v :: after ∧ IsFaulty (before ++ between) v := by
      intro P hP hf
      refine ⟨hP, [], w, r, rfl, ?_⟩
      rwa [List.append_nil]
    split at h
    · next hid =>
      cases h
      exact here rfl (.inl (by simpa using hid))
    split at h
    · next hs =>
      cases h
      exact here rfl (.inr (.inl (hseen _ (List.contains_iff_mem.mp hs))))
    split at h
    · next hm =>
      cases h
      exact here rfl (.inr (.inr hm))
    have hseen' : ∀ s ∈ w.constant :: seen, s ∈ (before ++ [w]).map (·.constant) := by
      intro s hs
      rw [List.map_append, List.mem_append]
      rcases List.mem_cons.mp hs with rfl | hs
      · exact .inr (List.mem_singleton_self _)
      · exact .inl (hseen s hs)
    obtain ⟨hcause, between, v, after, rfl, hf⟩ := ih hseen' h
    refine ⟨hcause, w :: between, v, after, rfl, ?_⟩
    rwa [List.append_assoc] at hf

/-! ## Complete artifacts -/

/-- An artifact that has all that rendering asks for, its variants apart. -/
structure Complete (a : Artifact) : Prop where
  className : Name.isIdentifier a.className = true
  fields : ∀ f ∈ a.fields, Name.isIdentifier f.name = true
  fields_ne_nil : a.fields ≠ []
  variants_ne_nil : a.kind = .enumeration → a.variants ≠ []
  idClass : a.kind.isEntity = true → ∃ idClass, present a.idClass = some idClass
  serialNumber : a.kind.isEntity = true →
    ∃ serial, (a.fields.filter fun f => f.role = .serialNumber) = [serial]

theorem Complete.checkAllNames (h : a.Complete) : a.checkAllNames = .ok () := by
  rw [Artifact.checkAllNames, if_pos h.className, checkNames_of_forall 0 h.fields]

theorem Complete.entityFile (h : a.Complete) (he : a.kind.isEntity = true)
    (hn : ∀ c ∈ importedClasses config, ∃ name, c = .named name) :
    ∃ file, a.entityFile config = .ok file := by
  obtain ⟨idClass, hid⟩ := h.idClass he
  obtain ⟨serial, hserial⟩ := h.serialNumber he
  obtain ⟨interface, hi⟩ := hn config.valueInterface (by simp [importedClasses, valueClasses])
  have hclasses : checkClasses [a.baseClass config, config.serialGenerator] = .ok () := by
    refine checkClasses_of_named fun c hc => hn c ?_
    unfold baseClass at hc
    rw [importedClasses]
    split at hc <;> simp at hc <;> rcases hc with rfl | rfl <;> simp
  have hinterface : checkInterface config.valueInterface = .ok () := by
    rw [hi]
    rfl
  rw [Artifact.entityFile, hid, hserial, hclasses, hinterface]
  exact ⟨_, rfl⟩

theorem Complete.valueFile (h : a.Complete)
    (hn : ∀ c ∈ importedClasses config, ∃ name, c = .named name) :
    ∃ file, a.valueFile config = .ok file := by
  have hne : a.fields.isEmpty = false := List.isEmpty_eq_false_iff.mpr h.fields_ne_nil
  have hclasses : checkClasses (valueClasses config) = .ok () := by
    refine checkClasses_of_named fun c hc => hn c ?_
    exact List.mem_cons_of_mem _ (List.mem_cons_of_mem _ (List.mem_cons_of_mem _ hc))
  rw [Artifact.valueFile, hne, hclasses]
  exact ⟨_, rfl⟩

/-- The file of a complete enumeration is missing only for a fault in a variant. -/
theorem Complete.enumFile (h : a.Complete) (hk : a.kind = .enumeration)
    (hn : ∀ c ∈ importedClasses config, ∃ name, c = .named name) :
    ((∃ file, a.enumFile config = .ok file) ∧ ¬ a.HasFaultyVariant) ∨
      ((∃ cause, a.enumFile config = .error cause ∧ cause.isOfArtifact = true) ∧
        a.HasFaultyVariant) := by
  have hne : a.variants.isEmpty = false := List.isEmpty_eq_false_iff.mpr (h.variants_ne_nil hk)
  have hclasses : checkClasses [config.valueInterface] = .ok () := by
    refine checkClasses_of_named fun c hc => hn c ?_
    rw [List.mem_singleton.mp hc]
    simp [importedClasses, valueClasses]
  cases hv : checkVariants [] 0 a.variants with
  | ok u =>
    refine .inl ⟨⟨_, by rw [Artifact.enumFile, hne, hv, hclasses]; rfl⟩, ?_⟩
    rintro ⟨-, before, v, after, heq, hf⟩
    exact (checkVariants_eq_ok hv heq).2 hf
  | error cause =>
    have hseen : ∀ s ∈ ([] : List String), s ∈ ([] : List Schema.Variant).map (·.constant) := nofun
    obtain ⟨hcause, before, v, after, heq, hf⟩ := checkVariants_eq_error hseen hv
    exact .inr ⟨⟨cause, by rw [Artifact.enumFile, hne, hv]; rfl, hcause⟩,
      hk, before, v, after, heq, hf⟩

theorem render_eq_ok {file : Java.File} (h : a.fileOrCause config = .ok file) :
    a.render config = .ok file.print := by
  rw [render, Artifact.file, h]
  rfl

theorem render_eq_error {cause : RenderCause} (h : a.fileOrCause config = .error cause) :
    a.render config = .error ⟨orElse a.className "<unnamed>", cause⟩ := by
  rw [render, Artifact.file, h]
  rfl

theorem file_eq_ok {file : Java.File} :
    a.file config = .ok file ↔ a.fileOrCause config = .ok file := by
  unfold Artifact.file
  cases a.fileOrCause config <;> simp [Except.mapError]

/-- A complete artifact is rendered, or it has a faulty variant and is refused for it. -/
theorem Complete.render (h : a.Complete)
    (hn : ∀ c ∈ importedClasses config, ∃ name, c = .named name) :
    ((∃ text, a.render config = .ok text) ∧ ¬ a.HasFaultyVariant) ∨
      ((∃ e, a.render config = .error e ∧ e.cause.isOfArtifact = true) ∧ a.HasFaultyVariant) := by
  have hnames : a.fileOrCause config =
      if a.kind.isEntity then a.entityFile config
      else if a.kind = .enumeration then a.enumFile config else a.valueFile config := by
    rw [fileOrCause, h.checkAllNames]
  by_cases he : a.kind.isEntity = true
  · obtain ⟨file, hfile⟩ := h.entityFile he hn
    rw [if_pos he, hfile] at hnames
    refine .inl ⟨⟨_, render_eq_ok hnames⟩, ?_⟩
    rintro ⟨hk, -⟩
    rw [hk] at he
    cases he
  rw [if_neg he] at hnames
  by_cases hk : a.kind = .enumeration
  · rw [if_pos hk] at hnames
    rcases h.enumFile hk hn with ⟨⟨file, hfile⟩, hgood⟩ | ⟨⟨cause, hfile, hcause⟩, hbad⟩
    · rw [hfile] at hnames
      exact .inl ⟨⟨_, render_eq_ok hnames⟩, hgood⟩
    · rw [hfile] at hnames
      exact .inr ⟨⟨_, render_eq_error hnames, hcause⟩, hbad⟩
  · obtain ⟨file, hfile⟩ := h.valueFile hn
    rw [if_neg hk, hfile] at hnames
    refine .inl ⟨⟨_, render_eq_ok hnames⟩, ?_⟩
    rintro ⟨hk', -⟩
    exact hk hk'

end Artifact

/-! ## Artifacts of well-formed trees -/

namespace Schema

open Artifact

variable {config : Config} {package : String} {place : Place} {info : Info} {v : ValueObject}
  {node : Node} {a : Artifact}

theorem Info.FormedAt.isIdentifier_class (h : info.FormedAt place) {suffix : String}
    (hs : Name.IsSuffix suffix) :
    Name.isIdentifier (Name.className info.name ++ suffix) = true :=
  Name.isIdentifier_append h.classAllowed (Name.isAlphanum_of_mem_className h.name_stripped) hs

theorem Info.FormedAt.isIdentifier_field (h : info.FormedAt place) {suffix : String}
    (hs : Name.IsSuffix suffix) :
    Name.isIdentifier (Name.fieldName info.name ++ suffix) = true :=
  Name.isIdentifier_append h.fieldAllowed (Name.isAlphanum_of_mem_fieldName h.name_stripped) hs

theorem ValueObject.FormedAt.head (h : v.FormedAt place) : v.info.FormedAt place := by
  cases h with
  | leaf hi => exact hi
  | composite hi => exact hi
  | enumeration hi => exact hi

theorem Node.FormedAt.head (h : node.FormedAt place) : node.info.FormedAt place := by
  cases h with
  | value hv => exact hv.head
  | entity hi => exact hi

theorem isIdentifier_value : Name.isIdentifier "value" = true := by decide

/-- A value object that wraps a primitive is complete if its class has a name. -/
theorem complete_wrapper {className description : String} {kind : Artifact.Kind}
    {primitive : Primitive} (hc : Name.isIdentifier className = true)
    (hk : kind.isEntity = false) (hne : kind ≠ .enumeration) :
    (wrapper package className kind description primitive).Complete where
  className := hc
  fields := List.forall_mem_singleton.mpr isIdentifier_value
  fields_ne_nil := nofun
  variants_ne_nil h := absurd h hne
  idClass h := absurd (hk ▸ h) Bool.false_ne_true
  serialNumber h := absurd (hk ▸ h) Bool.false_ne_true

/-- Value objects ask for no more than names and fields. -/
theorem complete_of_kind {a : Artifact} (hclass : Name.isIdentifier a.className = true)
    (hfields : ∀ f ∈ a.fields, Name.isIdentifier f.name = true) (hne : a.fields ≠ [])
    (hk : a.kind = .valueObject) : a.Complete where
  className := hclass
  fields := hfields
  fields_ne_nil := hne
  variants_ne_nil h := by
    rw [hk] at h
    cases h
  idClass h := by
    rw [hk] at h
    cases h
  serialNumber h := by
    rw [hk] at h
    cases h

theorem complete_of_valueObject (hv : v.FormedAt place) :
    ∀ a ∈ v.artifacts package, a.Complete := by
  induction hv with
  | leaf hi primitive =>
    intro a ha
    obtain rfl : a = _ := by simpa [ValueObject.artifacts] using ha
    exact complete_of_kind hi.classAllowed (List.forall_mem_singleton.mpr isIdentifier_value)
      (List.cons_ne_nil _ _) rfl
  | @composite place info parts hi hne hparts ih =>
    intro a ha
    rw [ValueObject.artifacts, List.mem_cons, mem_artifactsOfParts] at ha
    rcases ha with rfl | ⟨part, hp, ha⟩
    · refine complete_of_kind hi.classAllowed ?_ ?_ rfl
      · intro f hf
        obtain ⟨part, hp, rfl⟩ := List.mem_map.mp hf
        obtain ⟨i, hget⟩ := List.mem_iff_getElem?.mp hp
        exact (hparts i part hget).head.fieldAllowed
      · exact fun hn => hne (List.map_eq_nil_iff.mp hn)
    · obtain ⟨i, hget⟩ := List.mem_iff_getElem?.mp hp
      exact ih i part hget a ha
  | enumeration hi hne _ =>
    intro a ha
    obtain rfl : a = _ := by simpa [ValueObject.artifacts] using ha
    exact ⟨hi.classAllowed, List.forall_mem_singleton.mpr (by decide), List.cons_ne_nil _ _,
      fun _ => hne, fun h => absurd h Bool.false_ne_true, fun h => absurd h Bool.false_ne_true⟩

theorem Node.reference_name (m : Node) :
    (m.reference config package).name = Name.fieldName m.info.name := by
  cases m <;> rfl

theorem Node.reference_role (m : Node) : (m.reference config package).role = .declared := by
  cases m <;> rfl

/-- No field for a member is a serial number. -/
theorem filter_references (members : List Node) :
    (members.map (Node.reference config package)).filter (fun f => f.role = .serialNumber) =
      [] := by
  rw [List.filter_eq_nil_iff]
  intro f hf
  obtain ⟨m, -, rfl⟩ := List.mem_map.mp hf
  rw [Node.reference_role]
  decide

theorem complete_entityArtifact (hc : config.Standard) (hi : info.FormedAt place) {isRoot : Bool}
    {sub : Option String} {members : List Node}
    (hmembers : ∀ i (m : Node), members[i]? = some m → m.FormedAt (place ++ [.child i])) :
    (entityArtifact config package info isRoot sub members).Complete where
  className := by
    show Name.isIdentifier (config.entityClass info.name isRoot) = true
    unfold Config.entityClass
    rw [hc.rootSuffix, hc.entitySuffix]
    cases isRoot
    · exact hi.isIdentifier_class (by decide)
    · exact hi.isIdentifier_class (by decide)
  fields := by
    refine List.forall_mem_cons.mpr ⟨?_, List.forall_mem_cons.mpr ⟨?_, fun f hf => ?_⟩⟩
    · show Name.isIdentifier (Name.fieldName info.name ++ config.idSuffix) = true
      rw [hc.idSuffix]
      exact hi.isIdentifier_field (by decide)
    · show Name.isIdentifier (Name.fieldName info.name ++ config.serialSuffix) = true
      rw [hc.serialSuffix]
      exact hi.isIdentifier_field (by decide)
    · obtain ⟨m, hm, rfl⟩ := List.mem_map.mp hf
      obtain ⟨i, hget⟩ := List.mem_iff_getElem?.mp hm
      rw [Node.reference_name]
      exact (hmembers i m hget).head.fieldAllowed
  fields_ne_nil := nofun
  variants_ne_nil := by cases isRoot <;> exact nofun
  idClass _ := by
    refine ⟨config.idClass info.name, Option.filter_eq_some_iff.mpr ⟨rfl, ?_⟩⟩
    have hne : config.idClass info.name ≠ "" := by
      unfold Config.idClass
      rw [hc.idSuffix]
      simp
    simpa using hne
  serialNumber _ := by
    refine ⟨companionField info config.serialSuffix .serialNumber
      (serialArtifact config package info), ?_⟩
    show List.filter (fun f => f.role = .serialNumber)
      (companionField _ _ .identity _ :: companionField _ _ .serialNumber _ :: _) = _
    rw [List.filter_cons_of_neg (by simp [companionField]),
      List.filter_cons_of_pos (by simp [companionField]), filter_references]

/-- Every artifact of a well-formed node is complete. -/
theorem complete_of_artifacts (hc : config.Standard) (hn : node.FormedAt place) :
    ∀ a ∈ node.artifacts config package, a.Complete := by
  induction hn generalizing package with
  | value hv => exact complete_of_valueObject hv
  | entity hi hsub hroot hmembers ih =>
    intro a ha
    rw [Node.artifacts, List.mem_cons, List.mem_cons, List.mem_cons, mem_artifactsOfMembers] at ha
    rcases ha with rfl | rfl | rfl | ⟨m, hm, ha⟩
    · exact complete_entityArtifact hc hi hmembers
    · refine complete_wrapper ?_ rfl (by decide)
      unfold Config.idClass
      rw [hc.idSuffix]
      exact hi.isIdentifier_class (by decide)
    · refine complete_wrapper ?_ rfl (by decide)
      unfold Config.serialClass
      rw [hc.serialSuffix]
      exact hi.isIdentifier_class (by decide)
    · obtain ⟨i, hget⟩ := List.mem_iff_getElem?.mp hm
      exact ih i m hget a ha

/-- An artifact of a well-formed tree has a file, unless it has a faulty variant. -/
theorem Tree.WellFormed.exists_file {tree : Tree} (ht : tree.WellFormed)
    (ha : a ∈ tree.node.artifacts {} package) (hv : ¬ a.HasFaultyVariant) :
    ∃ file, a.file {} = .ok file := by
  have hn : ∀ c ∈ importedClasses {}, ∃ name, c = .named name := by
    simp [importedClasses, valueClasses]
  have hcomplete := complete_of_artifacts standard_default ht a ha
  rcases hcomplete.render hn with ⟨⟨text, htext⟩, -⟩ | ⟨-, hbad⟩
  · cases hf : a.file {} with
    | error e =>
      rw [render, hf] at htext
      cases htext
    | ok file => exact ⟨file, rfl⟩
  · exact absurd hbad hv

end Schema

/-! ## Rendering what is generated for a schema -/

/-- Of the artifacts that are generated for a schema, exactly the enumerations with a faulty variant
are refused, and the refusal lies in the artifact; all others are rendered. -/
theorem render_fails_iff [Surrogates] {config : Config} {package : String} {doc : Json}
    {tree : Schema.Tree}
    {artifacts : List Artifact} (hc : config.Standard)
    (hn : ∀ c ∈ Artifact.importedClasses config, ∃ name, c = .named name)
    (hr : Schema.Tree.read doc = .ok tree) (h : tree.artifacts config package = .ok artifacts) :
    ∀ a ∈ artifacts,
      ((∃ e, a.render config = .error e ∧ e.cause.isOfArtifact = true) ↔ a.HasFaultyVariant) ∧
        ((∃ text, a.render config = .ok text) ↔ ¬ a.HasFaultyVariant) := by
  intro a ha
  obtain ⟨rfl, -⟩ := Schema.Tree.artifacts_eq_ok h
  have hcomplete := Schema.complete_of_artifacts hc (Schema.wellFormed_of_read hr) a ha
  rcases hcomplete.render hn with ⟨⟨text, htext⟩, hgood⟩ | ⟨⟨e, he, hcause⟩, hbad⟩
  · refine ⟨⟨?_, fun hbad => absurd hbad hgood⟩, fun _ => hgood, fun _ => ⟨text, htext⟩⟩
    rintro ⟨e, he, -⟩
    rw [htext] at he
    cases he
  · refine ⟨⟨fun _ => hbad, fun _ => ⟨e, he, hcause⟩⟩, ?_, fun hgood => absurd hbad hgood⟩
    rintro ⟨text, htext⟩
    rw [he] at htext
    cases htext

open scoped Surrogates in
/-- The enumeration in the nested tree is refused for its second variant, and the root is
rendered. -/
theorem render_fails_nested :
    ∃ artifacts, Schema.nested.artifacts {} "shop.domain" = .ok artifacts ∧
      (∃ a ∈ artifacts, a.className = "Currency" ∧
        ∃ e, a.render {} = .error e ∧ e.cause.isOfArtifact = true) ∧
      ∃ a ∈ artifacts, a.kind = .aggregateRoot ∧ ∃ text, a.render {} = .ok text := by
  have hn : ∀ c ∈ Artifact.importedClasses {}, ∃ name, c = .named name := by
    simp [Artifact.importedClasses, Artifact.valueClasses]
  have ha : Schema.nested.artifacts {} "shop.domain" =
      .ok (Schema.nested.node.artifacts {} "shop.domain") := rfl
  have hall := render_fails_iff standard_default hn Schema.wellFormed_nested.read_document ha
  have hcurrency : Schema.currency.artifact "shop.domain.valueobject" ∈
      Schema.nested.node.artifacts {} "shop.domain" := by
    simp [Schema.nested, Schema.Tree.node, Schema.Node.artifacts, Schema.artifactsOfMembers,
      Schema.ValueObject.artifacts, Schema.artifactsOfParts, Schema.currency,
      Config.valuePackageOf]
  have hroot : Schema.nested.node.artifacts {} "shop.domain" =
      Schema.entityArtifact {} "shop.domain" Schema.nested.info true none Schema.nested.members ::
        (Schema.nested.node.artifacts {} "shop.domain").tail := rfl
  refine ⟨_, ha, ⟨_, hcurrency, by decide, (hall _ hcurrency).1.mpr ?_⟩,
    ⟨_, hroot ▸ List.mem_cons_self, rfl, ?_⟩⟩
  · exact ⟨rfl, [⟨"CNY", "yuan"⟩], ⟨"not a name", ""⟩, [], rfl, .inr (.inr rfl)⟩
  · refine (hall _ (hroot ▸ List.mem_cons_self)).2.mpr ?_
    rintro ⟨hk, -⟩
    cases hk

end DomainCodegen
