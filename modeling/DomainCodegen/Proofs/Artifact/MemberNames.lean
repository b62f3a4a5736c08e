import DomainCodegen.Proofs.Artifact.Flattening
import DomainCodegen.Proofs.Artifact.ReadBack

/-!
# Names of members

No artifact of a tree names two artifacts by one class in one package, so fields that refer to
classes of one package by their stems have different names. That covers the fields of a value
object, and of an entity the id, the serial number and the fields for value objects. An entity in an
entity has a class with a suffix, and perhaps a package of its own, but a field without either, so
its field can meet any other field of its owner. In an enumeration the constants have different
names, but a constant can have the name of the field for the meaning (`memberNames_nodup_iff`).
-/

namespace DomainCodegen

open Java

variable {config : Config} {package q : String}

/-- What the body of a type declares, its constants first. -/
def Java.Outline.memberNames (o : Outline) : List String :=
  o.constants.map Prod.fst ++ o.fields.map Prod.snd

/-! ## Different names -/

namespace Artifact

variable {a : Artifact} {file : File}

/-- The constants of an enumeration that has a file are different. -/
theorem nodup_of_checkVariants {seen : List String} {index : Nat} {variants : List Schema.Variant}
    (h : checkVariants seen index variants = .ok ()) : (variants.map (·.constant)).Nodup := by
  rw [List.Nodup, List.pairwise_map, List.pairwise_iff_getElem]
  intro i j hi hj hlt heq
  have hsplit : variants = variants.take j ++ variants[j] :: variants.drop (j + 1) := by
    rw [← List.drop_eq_getElem_cons hj, List.take_append_drop]
  refine (checkVariants_eq_ok h hsplit).2 (.inr (.inl ?_))
  rw [← heq]
  exact List.mem_map_of_mem (List.mem_take_iff_getElem.mpr ⟨i, by omega, rfl⟩)

theorem constants_outline (a : Artifact) :
    a.outline.constants.map Prod.fst = a.variants.map (·.constant) :=
  List.map_map

theorem memberNames_outline (a : Artifact) :
    a.outline.memberNames = a.variants.map (·.constant) ++ a.fields.map Field.name := by
  rw [Outline.memberNames, constants_outline]
  congr 1
  exact List.map_map

theorem nodup_constants (hf : a.file {} = .ok file) :
    (file.outline.constants.map Prod.fst).Nodup := by
  obtain ⟨-, -, imports, declaration, rfl, hdeclared, -⟩ := fileOrCause_eq_ok (file_eq_ok.mp hf)
  cases hdeclared with
  | entity => exact List.nodup_nil
  | value => exact List.nodup_nil
  | enumeration hk hne hv =>
    have hnodup := nodup_of_checkVariants hv
    show ((a.variants.map fun v => (v.constant, v.meaning)).map Prod.fst).Nodup
    rwa [List.map_map]

end Artifact

namespace Schema

open Artifact

variable {info : Info} {members : List Node} {parts : List ValueObject} {s : Spot} {tree : Tree}
  {artifacts : List Artifact}

/-- No artifact of a tree names one artifact by two fields. -/
theorem Tree.nodup_references (h : tree.artifacts config package = .ok artifacts) :
    ∀ a ∈ artifacts, a.references.Nodup := by
  obtain ⟨rfl, hkeys⟩ := Tree.artifacts_eq_ok h
  obtain ⟨root, hroot⟩ := tree.rooted
  obtain ⟨-, hnames⟩ := List.nodup_cons.mp (hroot.named.nodup_iff.mpr (nodup_target_iff.mpr hkeys))
  exact (List.nodup_flatMap.mp hnames).1

/-- Names with words behind them give different fields if they give different classes of one
package. -/
theorem nodup_fieldNames {names : List (String × String)}
    (hne : ∀ p ∈ names, Name.className p.1 ≠ "")
    (h : (names.map fun p => ((some q, some (Name.className p.1 ++ p.2)) : Target)).Nodup) :
    (names.map fun p => Name.fieldName p.1 ++ p.2).Nodup := by
  rw [List.Nodup, List.pairwise_map] at h ⊢
  refine h.imp_of_mem fun hp hp' hapart heq => hapart ?_
  rw [(Name.fieldName_append_inj (hne _ hp) (hne _ hp')).mp heq]

def Node.fieldName (node : Node) : String := Name.fieldName node.info.name

/-- The fields for the id and the serial number of an entity. -/
def companionNames (config : Config) (info : Info) : List String :=
  [Name.fieldName info.name ++ config.idSuffix, Name.fieldName info.name ++ config.serialSuffix]

theorem Info.Usable.className_ne (h : info.Usable) : Name.className info.name ≠ "" :=
  h.className.ne_empty

theorem ValueObject.target_artifact (v : ValueObject) :
    (v.artifact q).target = (some q, some (Name.className v.info.name)) := by
  cases v <;> rfl

theorem nodup_of_composite (hparts : ∀ part ∈ parts, part.info.Usable)
    (h : (ValueObject.artifact q (.composite info parts)).references.Nodup) :
    (parts.map fun part => Name.fieldName part.info.name).Nodup := by
  have hnames := @nodup_fieldNames q (parts.map fun part => (part.info.name, ""))
  simp only [List.map_map, Function.comp_def, String.append_empty] at hnames
  refine hnames (List.forall_mem_map.mpr fun part hp => (hparts part hp).className_ne) ?_
  rw [references_composite] at h
  rwa [List.map_congr_left fun part _ => part.target_artifact] at h

/-- The id, the serial number and the value objects of an entity have different fields. -/
theorem nodup_of_entity {isRoot : Bool} {sub : Option String} (hi : info.Usable)
    (hmembers : ∀ m ∈ members, m.info.Usable)
    (h : (entityArtifact config q info isRoot sub members).references.Nodup) :
    (companionNames config info ++
      (members.filter fun m => !m.isEntity).map Node.fieldName).Nodup := by
  have hnames := @nodup_fieldNames (config.valuePackageOf q)
    ((info.name, config.idSuffix) :: (info.name, config.serialSuffix) ::
      (members.filter fun m => !m.isEntity).map fun m => (m.info.name, ""))
  simp only [List.map_cons, List.map_map, Function.comp_def, String.append_empty] at hnames
  refine hnames ?_ ?_
  · refine List.forall_mem_cons.mpr ⟨hi.className_ne, List.forall_mem_cons.mpr
      ⟨hi.className_ne, List.forall_mem_map.mpr fun m hm => ?_⟩⟩
    exact (hmembers m (List.mem_of_mem_filter hm)).className_ne
  · rw [references_entityArtifact] at h
    have htargets : ∀ m ∈ members.filter fun m => !m.isEntity,
        (m.artifactIn config q).target =
          (some (config.valuePackageOf q), some (Name.className m.info.name)) := by
      intro m hm
      cases m with
      | value v => exact v.target_artifact
      | entity info isRoot sub members =>
        have hvalue := List.of_mem_filter hm
        cases isRoot <;> cases hvalue
    have hsub : (members.filter fun m => !m.isEntity).Sublist members := List.filter_sublist
    have hnodup := h.sublist ((hsub.map fun m => (m.artifactIn config q).target).append_left _)
    rwa [List.map_congr_left htargets] at hnodup

/-- The entities in an entity have fields with names of their own. -/
structure EntitiesApart (config : Config) (info : Info) (members : List Node) : Prop where
  companions : ∀ m ∈ members, m.isEntity = true → m.fieldName ∉ companionNames config info
  members : members.Pairwise fun m m' =>
    m.isEntity = true ∨ m'.isEntity = true → m.fieldName ≠ m'.fieldName

theorem nodup_iff_entitiesApart
    (h : (companionNames config info ++
      (members.filter fun m => !m.isEntity).map Node.fieldName).Nodup) :
    (companionNames config info ++ members.map Node.fieldName).Nodup ↔
      EntitiesApart config info members := by
  obtain ⟨hcompanions, hvalues, hmixed⟩ := List.nodup_append.mp h
  have hpairs : members.Pairwise fun m m' => m.isEntity = false → m'.isEntity = false →
      m.fieldName ≠ m'.fieldName := by
    have hpairs := List.pairwise_filter.mp (List.pairwise_map.mp hvalues)
    exact hpairs.imp fun hp hm hm' => hp (by rw [hm]; rfl) (by rw [hm']; rfl)
  constructor
  · intro hall
    obtain ⟨-, hfields, hapart⟩ := List.nodup_append.mp hall
    refine ⟨fun m hm _ hmem => hapart _ hmem _ (List.mem_map_of_mem hm) rfl, ?_⟩
    refine (List.pairwise_map.mp hfields).imp ?_
    exact fun hne _ => hne
  · rintro ⟨hown, hothers⟩
    refine List.nodup_append.mpr ⟨hcompanions, List.pairwise_map.mpr ?_, ?_⟩
    · refine hpairs.imp₂ (fun m m' hv he => ?_) hothers
      cases hm : m.isEntity with
      | true => exact he (.inl hm)
      | false =>
        cases hm' : m'.isEntity with
        | true => exact he (.inr hm')
        | false => exact hv hm hm'
    · rintro name hname _ hmem rfl
      obtain ⟨m, hm, rfl⟩ := List.mem_map.mp hmem
      cases he : m.isEntity with
      | true => exact hown m hm he hname
      | false =>
        have hfilter : m ∈ members.filter fun m => !m.isEntity :=
          List.mem_filter.mpr ⟨hm, by rw [he]; rfl⟩
        exact hmixed _ hname _ (List.mem_map_of_mem hfilter) rfl

/-- When the members of the artifact of a node have different names. -/
def Node.MembersApart (config : Config) : Node → Prop
  | .value (.enumeration _ variants) => "businessMeaning" ∉ variants.map (·.constant)
  | .value _ => True
  | .entity info _ _ members => EntitiesApart config info members

theorem memberNames_entityArtifact (info : Info) (isRoot : Bool) (sub : Option String)
    (members : List Node) :
    (entityArtifact config q info isRoot sub members).outline.memberNames =
      companionNames config info ++ members.map Node.fieldName := by
  have hfields : (members.map (Node.reference config q)).map Field.name =
      members.map Node.fieldName := by
    rw [List.map_map]
    exact List.map_congr_left fun m _ => m.reference_name
  rw [memberNames_outline, ← hfields]
  rfl

theorem memberNames_composite (info : Info) (parts : List ValueObject) :
    (ValueObject.artifact q (.composite info parts)).outline.memberNames =
      parts.map fun part => Name.fieldName part.info.name := by
  rw [memberNames_outline]
  show (parts.map (ValueObject.reference q)).map _ = _
  rw [List.map_map]
  rfl

theorem Spot.membersApart_iff (hn : s.node.Usable)
    (hr : (s.artifact config package).references.Nodup)
    (hv : ((s.artifact config package).variants.map (·.constant)).Nodup) :
    (s.artifact config package).outline.memberNames.Nodup ↔ s.node.MembersApart config := by
  obtain ⟨trail, node⟩ := s
  cases hn with
  | value hvalue =>
    cases hvalue with
    | leaf hi primitive => exact iff_of_true (List.nodup_singleton _) trivial
    | composite hi hparts =>
      refine iff_of_true ?_ trivial
      rw [artifact, memberNames_composite]
      exact nodup_of_composite (fun part hp => (hparts part hp).head) hr
    | enumeration hi variants =>
      rw [memberNames_outline]
      show (variants.map (·.constant) ++ ["businessMeaning"]).Nodup ↔ "businessMeaning" ∉ _
      rw [← List.concat_eq_append, List.nodup_concat]
      exact and_iff_left hv
  | entity hi isRoot hsub hmembers =>
    rw [artifact, memberNames_entityArtifact]
    exact nodup_iff_entitiesApart (nodup_of_entity hi (fun m hm => (hmembers m hm).head) hr)

theorem Spot.nodup_companions (s : Spot) :
    ∀ a ∈ s.companions config package, a.outline.memberNames.Nodup := by
  obtain ⟨trail, node⟩ := s
  cases node with
  | value v => exact nofun
  | entity info isRoot sub members =>
    exact List.forall_mem_cons.mpr
      ⟨List.nodup_singleton _, List.forall_mem_singleton.mpr (List.nodup_singleton _)⟩

end Schema

open Artifact Schema

/-- The members of a generated type have different names exactly if, in an entity, the entities in
it have fields with names of their own and, in an enumeration, no constant has the name of the field
for the meaning. Constants are always different, and so are in an entity the id, the serial number
and the fields for value objects. -/
theorem memberNames_nodup_iff [Surrogates] {doc : Json} {tree : Schema.Tree} {package : String}
    {artifacts : List Artifact} {a : Artifact} {file : File}
    (hr : Schema.Tree.read doc = .ok tree) (h : tree.artifacts {} package = .ok artifacts)
    (ha : a ∈ artifacts) (hf : a.file {} = .ok file) :
    (file.outline.memberNames.Nodup ↔ ∀ node, a.source = some node → node.MembersApart {}) ∧
      (file.outline.constants.map Prod.fst).Nodup ∧
      ∀ info isRoot sub members, a.source = some (.entity info isRoot sub members) →
        file.outline.memberNames = companionNames {} info ++ members.map Node.fieldName ∧
        (companionNames {} info ++
          (members.filter fun m => !m.isEntity).map Node.fieldName).Nodup := by
  have hreferences : a.references.Nodup := Tree.nodup_references h a ha
  have hconstants := nodup_constants hf
  obtain ⟨rfl, -⟩ := Tree.artifacts_eq_ok h
  have hspelled := spelled_of_artifacts standard_default (wellFormed_of_read hr) a ha
  rw [hspelled.outline_file hf] at hconstants ⊢
  have hvariants : (a.variants.map (·.constant)).Nodup := by rwa [← constants_outline]
  refine ⟨?_, hconstants, ?_⟩
  · cases hsource : a.source with
    | none =>
      obtain ⟨s, -, hs⟩ := Tree.exists_companion ha hsource
      exact iff_of_true (s.nodup_companions a hs) nofun
    | some node =>
      obtain ⟨s, hs, rfl, rfl⟩ := Tree.exists_spot ha hsource
      rw [Spot.membersApart_iff ((usable_of_read hr).of_mem_spots hs) hreferences hvariants]
      simp
  · intro info isRoot sub members hsource
    obtain ⟨⟨trail, node⟩, hs, rfl, rfl⟩ := Tree.exists_spot ha hsource
    refine ⟨memberNames_entityArtifact _ _ _ _, ?_⟩
    cases (usable_of_read hr).of_mem_spots hs with
    | entity hi _ hsub hmembers =>
      exact nodup_of_entity hi (fun m hm => (hmembers m hm).head) hreferences

open scoped Surrogates in
/-- In the nested tree the field of the only entity in the root has a name of its own. -/
theorem memberNames_nodup_nested :
    ∃ artifacts a file, Schema.nested.artifacts {} "shop.domain" = .ok artifacts ∧ a ∈ artifacts ∧
      a.kind = .aggregateRoot ∧ a.file {} = .ok file ∧ file.outline.memberNames.Nodup := by
  have hall : Schema.nested.artifacts {} "shop.domain" =
      .ok (Schema.nested.node.artifacts {} "shop.domain") := rfl
  have ha : entityArtifact {} "shop.domain" nested.info true none nested.members ∈
      Schema.nested.node.artifacts {} "shop.domain" := List.mem_cons_self
  obtain ⟨file, hf⟩ := wellFormed_nested.exists_file ha (not_hasFaultyVariant (by decide))
  refine ⟨_, _, file, hall, ha, rfl, hf, ?_⟩
  refine (memberNames_nodup_iff wellFormed_nested.read_document hall ha hf).1.mpr ?_
  rintro node hnode
  obtain rfl := Option.some_inj.mp hnode
  exact ⟨by decide, by decide⟩

/-- An enumeration with a constant that has the name of the field for the meaning. -/
def confusedStatus : Schema.ValueObject :=
  .enumeration ⟨"status", "how it is", .single, [.child 1]⟩ [⟨"businessMeaning", "a meaning"⟩]

/-- An entity that holds an entity whose field has the name of its id. -/
def confused : Schema.Tree where
  info := ⟨"order", "an order", .single, []⟩
  isRoot := false
  subPackage := none
  members :=
    [.entity ⟨"orderId", "an item", .single, [.child 0]⟩ false none [], .value confusedStatus]

theorem wellFormed_confused : confused.WellFormed := by
  refine Schema.Node.FormedAt.entity (by decide) nofun (by decide) fun i m hm => ?_
  match i, hm with
  | 0, rfl => exact .entity (by decide) nofun nofun nofun
  | 1, rfl => exact .value (.enumeration (by decide) nofun (by decide))

open scoped Surrogates in
/-- An entity and an enumeration whose files declare two members of one name. -/
theorem memberNames_confused :
    ∃ artifacts, Schema.Tree.read confused.document = .ok confused ∧
      confused.artifacts {} "shop" = .ok artifacts ∧
      (∃ a ∈ artifacts, a.kind = .simpleEntity ∧
        ∃ file, a.file {} = .ok file ∧ ¬ file.outline.memberNames.Nodup) ∧
      ∃ a ∈ artifacts, a.kind = .enumeration ∧
        ∃ file, a.file {} = .ok file ∧ ¬ file.outline.memberNames.Nodup := by
  have hall : confused.artifacts {} "shop" = .ok (confused.node.artifacts {} "shop") := rfl
  have hspelled : ∀ a ∈ confused.node.artifacts {} "shop", a.Spelled :=
    spelled_of_artifacts standard_default wellFormed_confused
  have hentity : entityArtifact {} "shop" confused.info false none confused.members ∈
      confused.node.artifacts {} "shop" := List.mem_cons_self
  have hstatus : confusedStatus.artifact "shop.valueobject" ∈
      confused.node.artifacts {} "shop" := by
    simp [confused, Schema.Tree.node, Schema.Node.artifacts, Schema.artifactsOfMembers,
      Schema.ValueObject.artifacts, confusedStatus, Config.valuePackageOf]
  have hfaultless : ¬ (confusedStatus.artifact "shop.valueobject").HasFaultyVariant := by
    rintro ⟨-, before, v, after, heq, hfaulty⟩
    have hchecked : checkVariants [] 0 (confusedStatus.artifact "shop.valueobject").variants =
        .ok () := by
      decide
    exact (checkVariants_eq_ok hchecked heq).2 hfaulty
  refine ⟨_, wellFormed_confused.read_document, hall, ⟨_, hentity, rfl, ?_⟩,
    ⟨_, hstatus, rfl, ?_⟩⟩
  · obtain ⟨file, hf⟩ := wellFormed_confused.exists_file hentity (not_hasFaultyVariant (by decide))
    refine ⟨file, hf, ?_⟩
    rw [(hspelled _ hentity).outline_file hf]
    decide
  · obtain ⟨file, hf⟩ := wellFormed_confused.exists_file hstatus hfaultless
    refine ⟨file, hf, ?_⟩
    rw [(hspelled _ hstatus).outline_file hf]
    decide

end DomainCodegen
