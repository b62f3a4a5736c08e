import DomainCodegen.Proofs.Artifact.References
import DomainCodegen.Proofs.Artifact.Rendering

/-!
# How artifacts follow the tree

The artifacts of a tree are those of its nodes in pre-order: one for a value object, and three for
an entity, which is followed by its id and its serial number (`Node.artifacts_eq`). Where they stand
is read from the trail of the node: the sub-packages on it extend the package of the tree. The
fields that the schema declares are the children of the node.
-/

namespace DomainCodegen

namespace Schema

open Artifact

variable {config : Config} {package : String} {trail : List Node} {s : Spot} {a : Artifact}

/-! ## Packages -/

/-- The sub-package of an entity, unless it is empty. -/
def Node.subPackage? : Node → Option String
  | .value _ => none
  | .entity _ _ sub _ => present sub

/-- The package that the sub-packages on a trail lead to. -/
def homeOf (package : String) (trail : List Node) : String :=
  below package (trail.filterMap Node.subPackage?)

/-- The package of the nearest entity, which is the node itself if it is one. -/
def Spot.home (package : String) (s : Spot) : String := homeOf package s.trail

theorem below_childPackage (q : String) (sub : Option String) :
    below q (present sub).toList = childPackage q sub := by
  cases sub with
  | none => rfl
  | some s =>
    by_cases hs : s = ""
    · rw [hs]
      rfl
    · have hp : present (some s) = some s := by simp [present, hs]
      rw [hp, childPackage, if_neg hs]
      rfl

theorem Node.packageIn_eq (m : Node) (q : String) :
    m.packageIn q = below q m.subPackage?.toList := by
  cases m with
  | value v => rfl
  | entity info isRoot sub members => exact (below_childPackage q sub).symm

/-- One step on a trail leads to the package that the node is in. -/
theorem homeOf_append (m : Node) :
    homeOf package (trail ++ [m]) = m.packageIn (homeOf package trail) := by
  unfold homeOf
  rw [List.filterMap_append, ← below_append, m.packageIn_eq, List.filterMap_cons]
  cases m.subPackage? <;> rfl

/-! ## The artifacts of a spot -/

/-- The artifact of the node of a spot. -/
def Spot.artifact (config : Config) (package : String) (s : Spot) : Artifact :=
  match s.node with
  | .value v => v.artifact (config.valuePackageOf (s.home package))
  | .entity info isRoot sub members =>
    entityArtifact config (s.home package) info isRoot sub members

/-- The id and the serial number that an entity has. -/
def Spot.companions (config : Config) (package : String) (s : Spot) : List Artifact :=
  match s.node with
  | .value _ => []
  | .entity info _ _ _ =>
    [idArtifact config (s.home package) info, serialArtifact config (s.home package) info]

def Spot.artifacts (config : Config) (package : String) (s : Spot) : List Artifact :=
  s.artifact config package :: s.companions config package

theorem ValueObject.artifacts_eq (v : ValueObject) (trail : List Node) :
    v.artifacts (config.valuePackageOf (homeOf package trail)) =
      (v.spots trail).flatMap (Spot.artifacts config package) := by
  induction v using ValueObject.induction generalizing trail with
  | leaf info primitive => rfl
  | enumeration info variants => rfl
  | composite info parts ih =>
    rw [artifacts, spots, artifactsOfParts_eq, spotsOfParts_eq, List.flatMap_cons,
      List.flatMap_assoc]
    show _ :: _ = _ :: _
    congr 1
    refine List.flatMap_congr fun part hp => ?_
    rw [← ih part hp, homeOf_append]
    rfl

/-- The artifacts of a node are those of the spots at and below it, in pre-order. -/
theorem Node.artifacts_eq (node : Node) (trail : List Node) :
    node.artifacts config (homeOf package trail) =
      (node.spots trail).flatMap (Spot.artifacts config package) := by
  induction node using Node.induction generalizing trail with
  | value v => exact v.artifacts_eq trail
  | entity info isRoot sub members ih =>
    rw [artifacts, spots, artifactsOfMembers_eq, spotsOfMembers_eq, List.flatMap_cons,
      List.flatMap_assoc]
    show _ :: _ :: _ :: _ = _ :: _ :: _ :: _
    congr 3
    refine List.flatMap_congr fun m hm => ?_
    rw [← ih m hm, homeOf_append]

theorem Tree.artifacts_eq_flatMap (tree : Tree) :
    tree.node.artifacts config package = tree.spots.flatMap (Spot.artifacts config package) :=
  tree.node.artifacts_eq []

theorem Spot.source_artifact (s : Spot) : (s.artifact config package).source = some s.node := by
  obtain ⟨trail, node⟩ := s
  cases node with
  | value v => cases v <;> rfl
  | entity info isRoot sub members => rfl

theorem Spot.source_companions : ∀ a ∈ s.companions config package, a.source = none := by
  obtain ⟨trail, node⟩ := s
  cases node with
  | value v => exact nofun
  | entity info isRoot sub members =>
    exact List.forall_mem_cons.mpr ⟨rfl, List.forall_mem_singleton.mpr rfl⟩

theorem Spot.filterMap_source (s : Spot) :
    (s.artifacts config package).filterMap Artifact.source = [s.node] := by
  rw [artifacts, List.filterMap_cons_some s.source_artifact,
    List.filterMap_eq_nil_iff.mpr source_companions]

/-- An artifact that has a node is the one of a spot with that node. -/
theorem Tree.exists_spot {tree : Tree} {node : Node}
    (ha : a ∈ tree.node.artifacts config package) (hs : a.source = some node) :
    ∃ s ∈ tree.spots, s.node = node ∧ a = s.artifact config package := by
  rw [tree.artifacts_eq_flatMap, List.mem_flatMap] at ha
  obtain ⟨s, hm, ha⟩ := ha
  rcases List.mem_cons.mp ha with rfl | ha
  · rw [s.source_artifact] at hs
    exact ⟨s, hm, Option.some_inj.mp hs, rfl⟩
  · rw [Spot.source_companions a ha] at hs
    cases hs

/-- An artifact that has no node is the id or the serial number of an entity. -/
theorem Tree.exists_companion {tree : Tree} (ha : a ∈ tree.node.artifacts config package)
    (hs : a.source = none) : ∃ s ∈ tree.spots, a ∈ s.companions config package := by
  rw [tree.artifacts_eq_flatMap, List.mem_flatMap] at ha
  obtain ⟨s, hm, ha⟩ := ha
  rcases List.mem_cons.mp ha with rfl | ha
  · rw [s.source_artifact] at hs
    cases hs
  · exact ⟨s, hm, ha⟩

/-! ## What a spot yields -/

/-- An artifact that is made for an entity and not for a node. -/
structure IsCompanion (package : String) (kind : Artifact.Kind) (a : Artifact) : Prop where
  source : a.source = none
  kind : a.kind = kind
  package : a.package = package

/-- A value object gives one artifact in the value package of its nearest entity. An entity gives
three: itself in its package, and behind it its id and its serial number in its value package. -/
def Spot.Yields (config : Config) (package : String) (s : Spot) (group : List Artifact) : Prop :=
  match s.node with
  | .value _ => ∃ a, group = [a] ∧ a.source = some s.node ∧
      a.package = s.home package ++ "." ++ config.valuePackage
  | .entity _ _ _ _ => ∃ a id serial, group = [a, id, serial] ∧ a.source = some s.node ∧
      a.package = s.home package ∧ a.kind.isEntity = true ∧ a.idClass = some id.className ∧
      IsCompanion (s.home package ++ "." ++ config.valuePackage) .technicalId id ∧
      IsCompanion (s.home package ++ "." ++ config.valuePackage) .serialNumber serial

theorem Spot.yields_artifacts (s : Spot) :
    s.Yields config package (s.artifacts config package) := by
  obtain ⟨trail, node⟩ := s
  cases node with
  | value v => exact ⟨_, rfl, source_artifact _, by cases v <;> rfl⟩
  | entity info isRoot sub members =>
    exact ⟨_, _, _, rfl, rfl, rfl, by cases isRoot <;> rfl, rfl, ⟨rfl, rfl, rfl⟩, ⟨rfl, rfl, rfl⟩⟩

def Node.isEntity (node : Node) : Bool := node.kind == .aggregateRoot || node.kind == .simpleEntity

theorem Spot.length_artifacts (s : Spot) :
    (s.artifacts config package).length = 3 * [s.node].countP Node.isEntity +
      [s.node].countP (·.kind == .valueObject) + [s.node].countP (·.kind == .enumeration) := by
  obtain ⟨trail, node⟩ := s
  cases node with
  | value v => cases v <;> rfl
  | entity info isRoot sub members => cases isRoot <;> rfl

theorem length_flatMap_artifacts (spots : List Spot) :
    (spots.flatMap (Spot.artifacts config package)).length =
      3 * (spots.map Spot.node).countP Node.isEntity +
        (spots.map Spot.node).countP (·.kind == .valueObject) +
        (spots.map Spot.node).countP (·.kind == .enumeration) := by
  induction spots with
  | nil => rfl
  | cons s r ih =>
    have hcons : ∀ p : Node → Bool, ((s :: r).map Spot.node).countP p =
        [s.node].countP p + (r.map Spot.node).countP p := by
      intro p
      rw [List.map_cons, ← List.singleton_append, List.countP_append]
    rw [List.flatMap_cons, List.length_append, s.length_artifacts, ih, hcons, hcons, hcons]
    omega

/-! ## Declared fields -/

/-- A field that refers to a node by the artifact of that node. -/
structure RefersTo (artifacts : List Artifact) (child : Node) (f : Field) : Prop where
  name : f.name = Name.fieldName child.info.name
  description : f.description = child.info.description
  collection : f.type.collection = true ↔ child.info.cardinality = .multi
  target : ∃ b ∈ artifacts, b.source = some child ∧ f.type.Names b

theorem filter_declared (q : String) (members : List Node) :
    (members.map (Node.reference config q)).filter (fun f => f.role = .declared) =
      members.map (Node.reference config q) := by
  refine List.filter_eq_self.mpr (List.forall_mem_map.mpr fun m _ => ?_)
  rw [Node.reference_role]
  decide

/-- The declared fields of the artifact of a node are the references to its children. -/
theorem Spot.filter_fields (s : Spot) :
    (s.artifact config package).fields.filter (fun f => f.role = .declared) =
      s.node.children.map (Node.reference config (s.home package)) := by
  obtain ⟨trail, node⟩ := s
  rw [← filter_declared]
  cases node with
  | value v =>
    cases v with
    | leaf info primitive => rfl
    | enumeration info variants => rfl
    | composite info parts =>
      show List.filter _ (parts.map _) = List.filter _ ((parts.map Node.value).map _)
      rw [List.map_map]
      rfl
  | entity info isRoot sub members =>
    show List.filter _
      (companionField _ _ .identity _ :: companionField _ _ .serialNumber _ :: _) = _
    rw [List.filter_cons_of_neg (by simp [companionField]),
      List.filter_cons_of_neg (by simp [companionField])]
    rfl

theorem Node.reference_description (m : Node) :
    (m.reference config package).description = m.info.description := by
  cases m <;> rfl

theorem Node.reference_collection (m : Node) :
    (m.reference config package).type.collection = true ↔ m.info.cardinality = .multi := by
  cases m <;> exact decide_eq_true_iff

theorem Spot.names_reference (s : Spot) (c : Node) :
    (c.reference config (s.home package)).type.Names
      (Spot.artifact config package ⟨s.trail ++ [c], c⟩) := by
  have hhome : Spot.home package ⟨s.trail ++ [c], c⟩ = c.packageIn (s.home package) :=
    homeOf_append c
  rw [TypeRef.names_iff, c.primitive_reference, c.target_reference]
  refine ⟨rfl, ?_⟩
  cases c with
  | value v => rw [artifact, hhome]; rfl
  | entity info isRoot sub members => rw [artifact, hhome]; rfl

/-- The declared fields refer to the children, one to one and in order. -/
theorem Tree.refersTo {tree : Tree} (hs : s ∈ tree.spots) :
    List.Forall₂ (RefersTo (tree.node.artifacts config package)) s.node.children
      ((s.artifact config package).fields.filter fun f => f.role = .declared) := by
  rw [s.filter_fields, List.forall₂_map_right_iff, List.forall₂_same]
  intro c hc
  refine ⟨c.reference_name, c.reference_description, c.reference_collection, ?_⟩
  refine ⟨_, ?_, Spot.source_artifact ⟨s.trail ++ [c], c⟩, s.names_reference c⟩
  rw [tree.artifacts_eq_flatMap, List.mem_flatMap]
  exact ⟨_, Node.child_mem_spots hs hc, List.mem_cons_self⟩

end Schema

open Schema Artifact

/-- The artifacts of a tree that was read follow the tree. What they come from are its nodes in
pre-order, all different; in this order each node gives its artifact, and an entity its id and its
serial number behind it; and the declared fields are the children of the node. -/
theorem artifacts_follow_tree [Surrogates] {config : Config} {package : String} {doc : Json}
    {tree : Schema.Tree} {artifacts : List Artifact} (hr : Schema.Tree.read doc = .ok tree)
    (h : tree.artifacts config package = .ok artifacts) :
    (artifacts.filterMap Artifact.source = tree.nodes ∧
      (tree.nodes.map fun node => node.info.place.text).Nodup) ∧
    (∃ groups : List (List Artifact), artifacts = groups.flatten ∧
      List.Forall₂ (Spot.Yields config package) tree.spots groups) ∧
    artifacts.length = 3 * tree.nodes.countP Node.isEntity +
      tree.nodes.countP (·.kind == .valueObject) + tree.nodes.countP (·.kind == .enumeration) ∧
    ∀ a ∈ artifacts, ∀ node, a.source = some node →
      List.Forall₂ (RefersTo artifacts) node.children
        (a.fields.filter fun f => f.role = .declared) := by
  obtain ⟨rfl, -⟩ := Schema.Tree.artifacts_eq_ok h
  have hspots : tree.node.artifacts config package =
      tree.spots.flatMap (Spot.artifacts config package) := tree.artifacts_eq_flatMap
  refine ⟨⟨?_, ?_⟩, ⟨tree.spots.map (Spot.artifacts config package), ?_, ?_⟩, ?_, ?_⟩
  · rw [hspots, List.filterMap_flatMap]
    simp only [Spot.filterMap_source]
    rw [← List.map_eq_flatMap, Tree.nodes]
  · have hnodup := (Schema.wellFormed_of_read hr).nodup_nodes
    have htext := hnodup.map Place.text_injective
    rwa [List.map_map] at htext
  · rw [hspots, List.flatMap_def]
  · rw [List.forall₂_map_right_iff, List.forall₂_same]
    exact fun s _ => s.yields_artifacts
  · rw [hspots, length_flatMap_artifacts, Tree.nodes]
  · intro a ha node hs
    obtain ⟨s, hm, rfl, rfl⟩ := Schema.Tree.exists_spot ha hs
    exact Schema.Tree.refersTo hm

open scoped Surrogates in
/-- The nested tree has two entities, two other value objects and an enumeration. -/
theorem artifacts_follow_tree_nested :
    ∃ artifacts, Schema.nested.artifacts {} "shop.domain" = .ok artifacts ∧
      artifacts.length = 9 ∧ artifacts.filterMap Artifact.source = Schema.nested.nodes := by
  have ha : Schema.nested.artifacts {} "shop.domain" =
      .ok (Schema.nested.node.artifacts {} "shop.domain") := rfl
  obtain ⟨⟨hsource, -⟩, -, hlength, -⟩ :=
    artifacts_follow_tree Schema.wellFormed_nested.read_document ha
  exact ⟨_, ha, hlength.trans (by decide), hsource⟩

end DomainCodegen
