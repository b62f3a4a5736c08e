import DomainCodegen.Proofs.Artifact.Naming
import DomainCodegen.Proofs.Schema.Document
import DomainCodegen.Proofs.Schema.PreOrder

/-!
# References between artifacts

A field of class type names an artifact by its package and its class. The artifacts of a node come
in one order with what names them: the fields name every artifact but the first, each once and from
an artifact before it (`rooted_of_node`). If no class is generated twice, the artifacts of a tree
therefore are a tree by their references, and otherwise the first artifact whose key an earlier one
has is to blame (`isTree_of_artifacts`).
-/

namespace DomainCodegen

namespace Artifact

variable {a b : Artifact} {artifacts others : List Artifact} {f : Field}

/-! ## Targets -/

/-- A type names an artifact by its package and its class. -/
def TypeRef.Names (t : TypeRef) (a : Artifact) : Prop :=
  t.primitive = none ∧ t.package = some a.package ∧ t.className = some a.className

/-- A package and a class as a type has them. -/
abbrev Target := Option String × Option String

def target (a : Artifact) : Target := (some a.package, some a.className)

def TypeRef.target (t : TypeRef) : Target := (t.package, t.className)

/-- What the fields of class type name, in order. -/
def references (a : Artifact) : List Target :=
  (a.fields.filter fun f => f.type.primitive.isNone).map fun f => f.type.target

theorem target_eq_iff : a.target = b.target ↔ a.key = b.key := by
  simp [target, key]

theorem TypeRef.names_iff {t : TypeRef} :
    t.Names a ↔ t.primitive.isNone = true ∧ t.target = a.target := by
  simp [Names, TypeRef.target, Artifact.target]

theorem mem_references (hf : f ∈ a.fields) (hn : f.type.primitive = none) :
    f.type.target ∈ a.references :=
  List.mem_map.mpr ⟨f, List.mem_filter.mpr ⟨hf, by rw [hn]; rfl⟩, rfl⟩

theorem mem_references_iff :
    b.target ∈ a.references ↔ ∃ (m : Nat) (f : Field), a.fields[m]? = some f ∧ f.type.Names b := by
  simp only [references, List.mem_map, List.mem_filter, TypeRef.names_iff]
  constructor
  · rintro ⟨f, ⟨hf, hn⟩, ht⟩
    obtain ⟨m, hm⟩ := List.mem_iff_getElem?.mp hf
    exact ⟨m, f, hm, hn, ht⟩
  · rintro ⟨m, f, hm, hn, ht⟩
    exact ⟨f, ⟨List.mem_of_getElem? hm, hn⟩, ht⟩

/-- If an artifact names nothing twice, then one field at most names an artifact. -/
theorem index_unique (h : a.references.Nodup) {m n : Nat} {f g : Field}
    (hm : a.fields[m]? = some f) (hn : a.fields[n]? = some g) (hf : f.type.Names b)
    (hg : g.type.Names b) : m = n := by
  have hp : a.fields.Pairwise fun f g => f.type.primitive.isNone = true →
      g.type.primitive.isNone = true → f.type.target ≠ g.type.target :=
    List.pairwise_filter.mp (List.pairwise_map.mp h)
  rw [TypeRef.names_iff] at hf hg
  rw [List.pairwise_iff_getElem] at hp
  obtain ⟨hlm, rfl⟩ := List.getElem?_eq_some_iff.mp hm
  obtain ⟨hln, rfl⟩ := List.getElem?_eq_some_iff.mp hn
  rcases Nat.lt_trichotomy m n with hlt | heq | hlt
  · exact absurd (hf.2.trans hg.2.symm) (hp m n hlm hln hlt hf.1 hg.1)
  · exact heq
  · exact absurd (hg.2.trans hf.2.symm) (hp n m hln hlm hlt hg.1 hf.1)

/-! ## Rooted lists -/

/-- Artifacts that name nothing but artifacts behind them. -/
def ReferForward : List Artifact → Prop
  | [] => True
  | a :: r => (∀ t ∈ a.references, t ∈ r.map target) ∧ ReferForward r

theorem ReferForward.append (h : ReferForward artifacts) (h' : ReferForward others) :
    ReferForward (artifacts ++ others) := by
  induction artifacts with
  | nil => exact h'
  | cons a r ih =>
    refine ⟨fun t ht => ?_, ih h.2⟩
    show t ∈ (r ++ others).map target
    rw [List.map_append]
    exact List.mem_append_left _ (h.1 t ht)

theorem ReferForward.mem_drop (h : ReferForward artifacts) {i : Nat} (hi : artifacts[i]? = some a) :
    ∀ t ∈ a.references, t ∈ (artifacts.drop (i + 1)).map target := by
  induction artifacts generalizing i with
  | nil => cases hi
  | cons b r ih =>
    cases i with
    | zero =>
      cases hi
      exact h.1
    | succ i => exact ih h.2 hi

/-- A list that starts with a target, and whose other artifacts are named once each by artifacts
before them. -/
structure Rooted (root : Target) (artifacts : List Artifact) : Prop where
  starts : (artifacts.map target).head? = some root
  named : (root :: artifacts.flatMap references).Perm (artifacts.map target)
  forward : ReferForward artifacts

theorem rooted_singleton (h : a.references = []) : Rooted a.target [a] where
  starts := rfl
  named := by
    rw [List.flatMap_singleton, h]
    exact .refl _
  forward := ⟨by simp [h], trivial⟩

section Rooted

variable {roots : List Target} {lists : List (List Artifact)}

theorem named_flatten (h : List.Forall₂ Rooted roots lists) :
    (roots ++ lists.flatten.flatMap references).Perm (lists.flatten.map target) := by
  induction h with
  | nil => exact .refl _
  | @cons root list roots lists hfirst _ ih =>
    rw [List.flatten_cons, List.flatMap_append, List.map_append, List.cons_append]
    have hmove : (roots ++ (list.flatMap references ++ lists.flatten.flatMap references)).Perm
        (list.flatMap references ++ (roots ++ lists.flatten.flatMap references)) := by
      rw [← List.append_assoc, ← List.append_assoc]
      exact List.perm_append_comm.append_right _
    exact (hmove.cons root).trans (hfirst.named.append ih)

theorem forward_flatten (h : List.Forall₂ Rooted roots lists) : ReferForward lists.flatten := by
  induction h with
  | nil => trivial
  | cons hfirst _ ih => exact hfirst.forward.append ih

/-- An artifact that names the roots of lists, with the lists behind it. -/
theorem Rooted.cons (h : List.Forall₂ Rooted roots lists) (ha : a.references = roots) :
    Rooted a.target (a :: lists.flatten) where
  starts := rfl
  named := by
    rw [List.flatMap_cons, List.map_cons, ha]
    exact .cons _ (named_flatten h)
  forward := by
    refine ⟨fun t ht => (named_flatten h).mem_iff.mp (List.mem_append_left _ ?_), forward_flatten h⟩
    rwa [← ha]

end Rooted

/-! ## Trees of artifacts -/

/-- The field at the second index of the artifact at the first index names an artifact. -/
def RefersAt (artifacts : List Artifact) (i m : Nat) (b : Artifact) : Prop :=
  ∃ (a : Artifact) (f : Field), artifacts[i]? = some a ∧ a.fields[m]? = some f ∧ f.type.Names b

/-- Artifacts that are a tree by their references. -/
structure IsTree (artifacts : List Artifact) : Prop where
  /-- A field of class type names exactly one artifact, and that one stands later. -/
  target : ∀ (i : Nat) (a : Artifact), artifacts[i]? = some a →
    ∀ f ∈ a.fields, f.type.primitive = none →
      ∃ (j : Nat) (b : Artifact), artifacts[j]? = some b ∧ f.type.Names b ∧ i < j ∧
        ∀ (k : Nat) (c : Artifact), artifacts[k]? = some c → f.type.Names c → k = j
  /-- Exactly one field of exactly one artifact names an artifact that is not the first. -/
  owner : ∀ (j : Nat) (b : Artifact), artifacts[j]? = some b → 0 < j →
    ∃ i m, RefersAt artifacts i m b ∧ ∀ i' m', RefersAt artifacts i' m' b → i' = i ∧ m' = m
  /-- No field names the first artifact. -/
  root : ∀ b : Artifact, artifacts[0]? = some b → ∀ i m, ¬ RefersAt artifacts i m b

theorem nodup_target_iff :
    (artifacts.map Artifact.target).Nodup ↔ (artifacts.map Artifact.key).Nodup := by
  simp only [List.Nodup, List.pairwise_map, ne_eq, target_eq_iff]

theorem index_eq_of_target_eq (h : (artifacts.map Artifact.target).Nodup) {i j : Nat}
    (hi : artifacts[i]? = some a) (hj : artifacts[j]? = some b) (ht : a.target = b.target) :
    i = j := by
  have hlt : i < (artifacts.map Artifact.target).length := by
    rw [List.length_map]
    exact (List.getElem?_eq_some_iff.mp hi).1
  refine (List.getElem?_inj hlt h).mp ?_
  rw [List.getElem?_map, List.getElem?_map, hi, hj, Option.map_some, Option.map_some, ht]

theorem mem_of_refersAt {i m : Nat} (h : RefersAt artifacts i m b) :
    b.target ∈ artifacts.flatMap references := by
  obtain ⟨a, f, hi, hm, hf⟩ := h
  exact List.mem_flatMap.mpr
    ⟨a, List.mem_of_getElem? hi, mem_references_iff.mpr ⟨m, f, hm, hf⟩⟩

theorem refersAt_of_mem (h : b.target ∈ artifacts.flatMap references) :
    ∃ i m, RefersAt artifacts i m b := by
  obtain ⟨a, ha, hb⟩ := List.mem_flatMap.mp h
  obtain ⟨i, hi⟩ := List.mem_iff_getElem?.mp ha
  obtain ⟨m, f, hm, hf⟩ := mem_references_iff.mp hb
  exact ⟨i, m, a, f, hi, hm, hf⟩

/-- If no target is named twice, then one field at most names an artifact. -/
theorem refersAt_unique (h : (artifacts.flatMap references).Nodup) {i m i' m' : Nat}
    (hr : RefersAt artifacts i m b) (hr' : RefersAt artifacts i' m' b) : i' = i ∧ m' = m := by
  obtain ⟨hnodup, hapart⟩ := List.nodup_flatMap.mp h
  obtain ⟨a, f, hi, hm, hf⟩ := hr
  obtain ⟨a', f', hi', hm', hf'⟩ := hr'
  have hmem : b.target ∈ a.references := mem_references_iff.mpr ⟨m, f, hm, hf⟩
  have hmem' : b.target ∈ a'.references := mem_references_iff.mpr ⟨m', f', hm', hf'⟩
  have hii : i' = i := by
    rw [List.pairwise_iff_getElem] at hapart
    obtain ⟨hl, rfl⟩ := List.getElem?_eq_some_iff.mp hi
    obtain ⟨hl', rfl⟩ := List.getElem?_eq_some_iff.mp hi'
    rcases Nat.lt_trichotomy i i' with hlt | heq | hlt
    · exact absurd hmem' (hapart i i' hl hl' hlt hmem)
    · exact heq.symm
    · exact absurd hmem (hapart i' i hl' hl hlt hmem')
  subst hii
  rw [hi'] at hi
  cases hi
  exact ⟨rfl, index_unique (hnodup _ (List.mem_of_getElem? hi')) hm' hm hf' hf⟩

/-- A rooted list of artifacts with different keys is a tree. -/
theorem Rooted.isTree {root : Target} (h : Rooted root artifacts)
    (hkeys : (artifacts.map Artifact.key).Nodup) : IsTree artifacts := by
  have hnodup := nodup_target_iff.mpr hkeys
  obtain ⟨hroot, hnames⟩ := List.nodup_cons.mp (h.named.nodup_iff.mpr hnodup)
  obtain ⟨first, hfirst, hstart⟩ : ∃ first, artifacts[0]? = some first ∧ first.target = root := by
    have hs := h.starts
    rw [List.head?_map, Option.map_eq_some_iff] at hs
    obtain ⟨first, hf, ht⟩ := hs
    exact ⟨first, by rw [← List.head?_eq_getElem?, hf], ht⟩
  refine ⟨fun i a hi f hf hn => ?_, fun j b hj hpos => ?_, fun b hb i m hr => ?_⟩
  · obtain ⟨b, hb, ht⟩ := List.mem_map.mp (h.forward.mem_drop hi _ (mem_references hf hn))
    obtain ⟨k, hk⟩ := List.mem_iff_getElem?.mp hb
    rw [List.getElem?_drop] at hk
    have hfb : f.type.Names b := TypeRef.names_iff.mpr ⟨by rw [hn]; rfl, ht.symm⟩
    refine ⟨i + 1 + k, b, hk, hfb, by omega, fun l c hc hfc => ?_⟩
    refine index_eq_of_target_eq hnodup hc hk ?_
    rw [← (TypeRef.names_iff.mp hfc).2, ht]
  · have hmem : b.target ∈ root :: artifacts.flatMap references :=
      h.named.mem_iff.mpr (List.mem_map_of_mem (List.mem_of_getElem? hj))
    rcases List.mem_cons.mp hmem with heq | hmem
    · have := index_eq_of_target_eq hnodup hj hfirst (heq.trans hstart.symm)
      omega
    · obtain ⟨i, m, hr⟩ := refersAt_of_mem hmem
      exact ⟨i, m, hr, fun i' m' hr' => refersAt_unique hnames hr hr'⟩
  · rw [hfirst] at hb
    cases hb
    exact hroot (hstart ▸ mem_of_refersAt hr)

/-- If all fields are of class type, all of them name something. -/
theorem references_of_forall (h : ∀ f ∈ a.fields, f.type.primitive = none) :
    a.references = a.fields.map fun f => f.type.target := by
  rw [references, List.filter_eq_self.mpr]
  intro f hf
  rw [h f hf]
  rfl

end Artifact

/-! ## Artifacts of nodes -/

namespace Schema

open Artifact

variable {config : Config} {q : String}

theorem ValueObject.target_reference (v : ValueObject) :
    (v.reference q).type.target = (v.artifact q).target := by
  cases v <;> rfl

/-- A composite names its parts. -/
theorem references_composite (info : Info) (parts : List ValueObject) :
    (ValueObject.artifact q (.composite info parts)).references =
      parts.map fun part => (part.artifact q).target := by
  rw [references_of_forall]
  · show (parts.map (ValueObject.reference q)).map _ = _
    rw [List.map_map]
    exact List.map_congr_left fun part _ => part.target_reference
  · exact List.forall_mem_map.mpr fun part _ => rfl

theorem ValueObject.rooted (v : ValueObject) : Rooted (v.artifact q).target (v.artifacts q) := by
  induction v using ValueObject.induction with
  | leaf info primitive => exact rooted_singleton rfl
  | enumeration info variants => exact rooted_singleton rfl
  | composite info parts ih =>
    rw [ValueObject.artifacts, artifactsOfParts_eq, List.flatMap_def]
    have hparts : List.Forall₂ Rooted (parts.map fun part => (part.artifact q).target)
        (parts.map fun part => part.artifacts q) := by
      rw [List.forall₂_map_left_iff, List.forall₂_map_right_iff, List.forall₂_same]
      exact ih
    exact Rooted.cons hparts (references_composite info parts)

/-- The artifact of a node that stands in an entity of a package. -/
def Node.artifactIn (config : Config) (q : String) : Node → Artifact
  | .value v => v.artifact (config.valuePackageOf q)
  | .entity info isRoot sub members =>
    entityArtifact config (childPackage q sub) info isRoot sub members

theorem Node.target_reference (m : Node) :
    (m.reference config q).type.target = (m.artifactIn config q).target := by
  cases m with
  | value v => exact v.target_reference
  | entity info isRoot sub members => rfl

theorem Node.primitive_reference (m : Node) : (m.reference config q).type.primitive = none := by
  cases m <;> rfl

theorem primitive_entityArtifact (info : Info) (isRoot : Bool) (sub : Option String)
    (members : List Node) :
    ∀ f ∈ (entityArtifact config q info isRoot sub members).fields, f.type.primitive = none := by
  refine List.forall_mem_cons.mpr ⟨rfl, List.forall_mem_cons.mpr ⟨rfl, ?_⟩⟩
  exact List.forall_mem_map.mpr fun m _ => m.primitive_reference

/-- An entity names its id, its serial number, and then its members. -/
theorem references_entityArtifact (info : Info) (isRoot : Bool) (sub : Option String)
    (members : List Node) :
    (entityArtifact config q info isRoot sub members).references =
      [(idArtifact config q info).target, (serialArtifact config q info).target] ++
        members.map fun m => (m.artifactIn config q).target := by
  rw [references_of_forall (primitive_entityArtifact info isRoot sub members)]
  show _ :: _ :: (members.map (Node.reference config q)).map _ = _
  rw [List.map_map]
  congr 2
  exact List.map_congr_left fun m _ => m.target_reference

theorem rooted_entity {info : Info} {isRoot : Bool} {sub : Option String} {members : List Node}
    (h : ∀ m ∈ members,
      Rooted (m.artifactIn config q).target (m.artifacts config (m.packageIn q))) :
    Rooted (entityArtifact config q info isRoot sub members).target
      (Node.artifacts config q (.entity info isRoot sub members)) := by
  have hmembers : List.Forall₂ Rooted (members.map fun m => (m.artifactIn config q).target)
      (members.map fun m => m.artifacts config (m.packageIn q)) := by
    rw [List.forall₂_map_left_iff, List.forall₂_map_right_iff, List.forall₂_same]
    exact h
  have hid := rooted_singleton (a := idArtifact config q info) rfl
  have hserial := rooted_singleton (a := serialArtifact config q info) rfl
  rw [Node.artifacts, artifactsOfMembers_eq, List.flatMap_def]
  exact Rooted.cons (.cons hid (.cons hserial hmembers))
    (references_entityArtifact info isRoot sub members)

theorem Node.rooted (node : Node) :
    Rooted (node.artifactIn config q).target (node.artifacts config (node.packageIn q)) := by
  induction node using Node.induction generalizing q with
  | value v => exact v.rooted
  | entity info isRoot sub members ih => exact rooted_entity fun m hm => ih m hm

theorem Tree.rooted (tree : Tree) : ∃ root, Rooted root (tree.node.artifacts config q) :=
  ⟨_, rooted_entity fun m _ => m.rooted⟩

end Schema

/-! ## Artifacts of trees -/

namespace Artifact

/-- A double that was found is the first artifact whose key an earlier one has. -/
theorem firstDouble_eq_some {seen all : List Artifact} {first second : Artifact}
    (h : firstDouble seen all = some (first, second)) :
    ∃ before after, all = before ++ second :: after ∧ first ∈ seen ++ before ∧
      first.key = second.key ∧ (before.map key).Nodup ∧
      ∀ a ∈ before, ∀ b ∈ seen, b.key ≠ a.key := by
  induction all generalizing seen with
  | nil => cases h
  | cons a r ih =>
    unfold firstDouble at h
    split at h
    · next b hb =>
      cases h
      refine ⟨[], r, rfl, ?_, ?_, List.nodup_nil, nofun⟩
      · rw [List.append_nil]
        exact List.mem_of_find?_eq_some hb
      · simpa using List.find?_some hb
    · next hnone =>
      obtain ⟨before, after, rfl, hmem, hkey, hnodup, hfresh⟩ := ih h
      have ha : ∀ b ∈ seen, b.key ≠ a.key := by simpa using List.find?_eq_none.mp hnone
      refine ⟨a :: before, after, rfl, ?_, hkey, ?_, ?_⟩
      · rwa [List.append_assoc] at hmem
      · rw [List.map_cons, List.nodup_cons]
        refine ⟨fun hm => ?_, hnodup⟩
        obtain ⟨c, hc, he⟩ := List.mem_map.mp hm
        exact hfresh c hc a (by simp) he.symm
      · refine List.forall_mem_cons.mpr ⟨ha, fun c hc b hb => ?_⟩
        exact hfresh c hc b (List.mem_append_left _ hb)

/-- The source path of an artifact; an artifact that no node stands for has the one of the root. -/
def sourcePath (a : Artifact) : String := a.source.elim "$" fun node => node.info.place.text

theorem text_doubleError (first second : Artifact) :
    (doubleError first second).place.text = second.sourcePath := by
  unfold doubleError sourcePath
  cases second.source with
  | none =>
    show Schema.Place.text [] = "$"
    decide
  | some node => rfl

end Artifact

open Artifact

/-- What a tree gives: all the artifacts of its root if they have different keys, and otherwise an
error at the first artifact whose key an earlier one has. The artifacts that it gives are a tree by
their references. -/
theorem isTree_of_artifacts (config : Config) (package : String) (tree : Schema.Tree) :
    (∀ artifacts, tree.artifacts config package = .ok artifacts ↔
      artifacts = tree.node.artifacts config package ∧
        ((tree.node.artifacts config package).map Artifact.key).Nodup) ∧
    (¬ ((tree.node.artifacts config package).map Artifact.key).Nodup →
      ∃ (before : List Artifact) (second : Artifact) (after : List Artifact) (e : Schema.Error),
        tree.node.artifacts config package = before ++ second :: after ∧
          (before.map Artifact.key).Nodup ∧ second.key ∈ before.map Artifact.key ∧
          tree.artifacts config package = .error e ∧ e.place.text = second.sourcePath) ∧
    ∀ artifacts, tree.artifacts config package = .ok artifacts → IsTree artifacts := by
  have hok : ∀ artifacts, tree.artifacts config package = .ok artifacts ↔
      artifacts = tree.node.artifacts config package ∧
        ((tree.node.artifacts config package).map Artifact.key).Nodup := by
    refine fun artifacts => ⟨fun h => ?_, ?_⟩
    · obtain ⟨rfl, hnodup⟩ := Schema.Tree.artifacts_eq_ok h
      exact ⟨rfl, hnodup⟩
    · rintro ⟨rfl, hnodup⟩
      unfold Schema.Tree.artifacts
      dsimp only
      cases hd : firstDouble [] (tree.node.artifacts config package) with
      | none => rfl
      | some double =>
        obtain ⟨before, after, heq, hmem, hkey, -, -⟩ := firstDouble_eq_some hd
        rw [heq, List.map_append, List.map_cons] at hnodup
        have hsecond := List.disjoint_of_nodup_append hnodup (List.mem_map_of_mem hmem)
        exact absurd (hkey ▸ List.mem_cons_self) hsecond
  refine ⟨hok, fun hnot => ?_, fun artifacts h => ?_⟩
  · cases hd : firstDouble [] (tree.node.artifacts config package) with
    | none => exact absurd (nodup_of_firstDouble hd).2 hnot
    | some double =>
      obtain ⟨first, second⟩ := double
      obtain ⟨before, after, heq, hmem, hkey, hnodup, -⟩ := firstDouble_eq_some hd
      refine ⟨before, second, after, doubleError first second, heq, hnodup,
        hkey ▸ List.mem_map_of_mem hmem, ?_, text_doubleError first second⟩
      unfold Schema.Tree.artifacts
      dsimp only
      rw [hd]
  · obtain ⟨rfl, hnodup⟩ := (hok artifacts).mp h
    obtain ⟨root, hroot⟩ := tree.rooted
    exact hroot.isTree hnodup

/-- An entity with a value object that takes the class of its id. -/
def clashing : Schema.Tree where
  info := ⟨"order", "an order", .single, []⟩
  isRoot := true
  subPackage := none
  members := [.value (.leaf ⟨"orderId", "a number", .single, [.child 0]⟩ .long)]

/-- The nested tree has a tree of artifacts, and the one with the clash is refused. -/
theorem isTree_of_artifacts_nested :
    (∃ artifacts, Schema.nested.artifacts {} "shop.domain" = .ok artifacts ∧ IsTree artifacts) ∧
      ∃ e, clashing.artifacts {} "shop.domain" = .error e := by
  refine ⟨⟨_, rfl, (isTree_of_artifacts {} "shop.domain" Schema.nested).2.2 _ rfl⟩, ?_⟩
  obtain ⟨-, -, -, e, -, -, -, he, -⟩ :=
    (isTree_of_artifacts {} "shop.domain" clashing).2.1 (by decide)
  exact ⟨e, he⟩

end DomainCodegen
