import DomainCodegen.Output.Writing
import DomainCodegen.Proofs.Artifact.Flattening

/-!
# Changes stay local

What is inside a node shows in the artifacts of that node only. Its parent refers to it by its name,
its description, its cardinality and its package; the nodes above it see no more than that. So when
a node is replaced by another one with the same face, however deep it stands, all files before and
after its own stay as they are (`artifacts_local`).
-/

namespace DomainCodegen

open Artifact Schema

variable {config : Config} {package q : String} {info : Info} {n n' m m' : Node}
  {artifacts artifacts' mid mid' pre pre' post post' : List Artifact}

namespace Artifact

/-! ## Artifacts but for their nodes -/

/-- An artifact without the node that it comes from. -/
def unsourced (a : Artifact) : Artifact := { a with source := none }

/-- Lists of artifacts that differ in their nodes at most. -/
def SameButNodes (artifacts artifacts' : List Artifact) : Prop :=
  artifacts.map unsourced = artifacts'.map unsourced

theorem SameButNodes.refl (artifacts : List Artifact) : SameButNodes artifacts artifacts := rfl

theorem SameButNodes.append (h : SameButNodes pre pre') (h' : SameButNodes post post') :
    SameButNodes (pre ++ post) (pre' ++ post') := by
  unfold SameButNodes at *
  rw [List.map_append, List.map_append, h, h']

theorem SameButNodes.cons {a a' : Artifact} (ha : a.unsourced = a'.unsourced)
    (h : SameButNodes post post') : SameButNodes (a :: post) (a' :: post') := by
  unfold SameButNodes at *
  rw [List.map_cons, List.map_cons, ha, h]

/-- What does not look at the node of an artifact is the same for both lists. -/
theorem SameButNodes.map_eq {α : Type} {f : Artifact → α} (h : SameButNodes artifacts artifacts')
    (hf : ∀ a, f a.unsourced = f a) : artifacts.map f = artifacts'.map f := by
  have hmap : ∀ l : List Artifact, l.map f = (l.map unsourced).map f := by
    intro l
    rw [List.map_map]
    exact List.map_congr_left fun a _ => (hf a).symm
  rw [hmap, h, ← hmap]

theorem checkNames_unsourced (a : Artifact) (index : Nat) (fields : List Field) :
    a.unsourced.checkNames index fields = a.checkNames index fields := by
  induction fields generalizing index with
  | nil => rfl
  | cons f r ih => rw [checkNames, checkNames, ih]

/-- The text of an artifact does not depend on its node. -/
theorem render_unsourced (a : Artifact) : a.unsourced.render config = a.render config := by
  have hnames : a.unsourced.checkAllNames = a.checkAllNames := by
    unfold checkAllNames
    rw [checkNames_unsourced]
    rfl
  have hcause : a.unsourced.fileOrCause config = a.fileOrCause config := by
    unfold fileOrCause
    rw [hnames]
    rfl
  unfold render file
  rw [hcause]
  rfl

/-- Two lists are the same but for their nodes around a part of each. -/
def DifferWithin (mid mid' artifacts artifacts' : List Artifact) : Prop :=
  ∃ pre post pre' post', artifacts = pre ++ mid ++ post ∧ artifacts' = pre' ++ mid' ++ post' ∧
    SameButNodes pre pre' ∧ SameButNodes post post'

theorem DifferWithin.refl (mid mid' : List Artifact) : DifferWithin mid mid' mid mid' :=
  ⟨[], [], [], [], by simp, by simp, .refl [], .refl []⟩

/-- More artifacts around them change nothing. -/
theorem DifferWithin.extend (h : DifferWithin mid mid' artifacts artifacts')
    (hpre : SameButNodes pre pre') (hpost : SameButNodes post post') :
    DifferWithin mid mid' (pre ++ artifacts ++ post) (pre' ++ artifacts' ++ post') := by
  obtain ⟨front, back, front', back', rfl, rfl, hfront, hback⟩ := h
  exact ⟨pre ++ front, back ++ post, pre' ++ front', back' ++ post', by simp, by simp,
    hpre.append hfront, hback.append hpost⟩

end Artifact

namespace Schema

/-! ## Faces -/

/-- Two nodes that look the same from outside. What is in them may differ. -/
structure Node.SameFace (n n' : Node) : Prop where
  name : n.info.name = n'.info.name
  description : n.info.description = n'.info.description
  cardinality : n.info.cardinality = n'.info.cardinality
  kind : n.kind = n'.kind
  subPackage : n.subPackage? = n'.subPackage?

theorem Node.SameFace.packageIn (h : n.SameFace n') (q : String) :
    n.packageIn q = n'.packageIn q := by
  rw [n.packageIn_eq, n'.packageIn_eq, h.subPackage]

theorem Node.SameFace.isRoot_eq {info' : Info} {isRoot isRoot' : Bool} {sub sub' : Option String}
    {members members' : List Node}
    (h : (Node.entity info isRoot sub members).SameFace (.entity info' isRoot' sub' members')) :
    isRoot = isRoot' := by
  have hkind := h.kind
  cases isRoot <;> cases isRoot' <;> first | rfl | cases hkind

/-- What a parent says of a node is all in its face. -/
theorem Node.SameFace.reference (h : n.SameFace n') (config : Config) (q : String) :
    n.reference config q = n'.reference config q := by
  have hface : ∀ className package, Artifact.reference n.info className package =
      Artifact.reference n'.info className package := by
    intro className package
    unfold Artifact.reference
    rw [h.name, h.description, h.cardinality]
  cases n with
  | value v =>
    cases n' with
    | value v' =>
      have hname : v.info.name = v'.info.name := h.name
      show Artifact.reference _ (Name.className v.info.name) _ = _
      rw [hname]
      exact hface _ _
    | entity info' isRoot' sub' members' =>
      exact absurd h.kind (by cases v <;> cases isRoot' <;> exact nofun)
  | entity info isRoot sub members =>
    cases n' with
    | value v' => exact absurd h.kind (by cases v' <;> cases isRoot <;> exact nofun)
    | entity info' isRoot' sub' members' =>
      obtain rfl := h.isRoot_eq
      have hname : info.name = info'.name := h.name
      have hpackage : childPackage q sub = childPackage q sub' := h.packageIn q
      show Artifact.reference _ (config.entityClass info.name isRoot) _ = _
      rw [hname, hpackage]
      exact hface _ _

/-! ## Replacing a node -/

/-- A node is the other one with `n'` in the place of `n`, which may be the whole node or stand at
any depth in it. -/
inductive Node.Replaced (n n' : Node) : Node → Node → Prop
  | here : n.Replaced n' n n'
  | part (info : Info) (before after : List ValueObject) {v v' : ValueObject}
      (h : n.Replaced n' (.value v) (.value v')) :
      n.Replaced n' (.value (.composite info (before ++ v :: after)))
        (.value (.composite info (before ++ v' :: after)))
  | member (info : Info) (isRoot : Bool) (sub : Option String) (before after : List Node)
      {m m' : Node} (h : n.Replaced n' m m') :
      n.Replaced n' (.entity info isRoot sub (before ++ m :: after))
        (.entity info isRoot sub (before ++ m' :: after))

/-- A tree is the other one with `n'` in the place of `n`, which is not the root. -/
inductive Tree.Replaced (n n' : Node) : Tree → Tree → Prop
  | member (info : Info) (isRoot : Bool) (sub : Option String) (before after : List Node)
      {m m' : Node} (h : n.Replaced n' m m') :
      Tree.Replaced n n' ⟨info, isRoot, sub, before ++ m :: after⟩
        ⟨info, isRoot, sub, before ++ m' :: after⟩

/-- The nodes above a replaced node keep their faces. -/
theorem Node.Replaced.sameFace (h : n.Replaced n' m m') (hf : n.SameFace n') : m.SameFace m' := by
  cases h with
  | here => exact hf
  | part info before after h => exact ⟨rfl, rfl, rfl, rfl, rfl⟩
  | member info isRoot sub before after h => exact ⟨rfl, rfl, rfl, rfl, rfl⟩

/-! ## The artifacts around a node -/

theorem artifacts_composite (config : Config) (q : String) (info : Info)
    (before after : List ValueObject) (v : ValueObject) :
    (Node.value (.composite info (before ++ v :: after))).artifacts config q =
      (ValueObject.artifact (config.valuePackageOf q) (.composite info (before ++ v :: after)) ::
          before.flatMap (ValueObject.artifacts (config.valuePackageOf q))) ++
        (Node.value v).artifacts config q ++
        after.flatMap (ValueObject.artifacts (config.valuePackageOf q)) := by
  rw [Node.artifacts, ValueObject.artifacts, artifactsOfParts_eq, List.flatMap_append,
    List.flatMap_cons, Node.artifacts]
  simp

theorem unsourced_composite (package : String) (info : Info) (parts : List ValueObject) :
    (ValueObject.artifact package (.composite info parts)).unsourced =
      { package, className := Name.className info.name, kind := .valueObject
        description := info.description, fields := parts.map (ValueObject.reference package) } :=
  rfl

theorem artifacts_entity (config : Config) (q : String) (info : Info) (isRoot : Bool)
    (sub : Option String) (before after : List Node) (m : Node) :
    (Node.entity info isRoot sub (before ++ m :: after)).artifacts config q =
      (entityArtifact config q info isRoot sub (before ++ m :: after) ::
          idArtifact config q info :: serialArtifact config q info ::
          before.flatMap fun m => m.artifacts config (m.packageIn q)) ++
        m.artifacts config (m.packageIn q) ++
        after.flatMap fun m => m.artifacts config (m.packageIn q) := by
  rw [Node.artifacts, artifactsOfMembers_eq, List.flatMap_append, List.flatMap_cons]
  simp

theorem map_eq_of_middle {α β : Type} {f : α → β} {x x' : α} (before after : List α)
    (h : f x = f x') : (before ++ x :: after).map f = (before ++ x' :: after).map f := by
  rw [List.map_append, List.map_append, List.map_cons, List.map_cons, h]

/-- A node that is replaced changes its own artifacts, and the nodes that others come from. -/
theorem Node.Replaced.differWithin (h : n.Replaced n' m m') (hf : n.SameFace n') (config : Config)
    (q : String) :
    ∃ home, DifferWithin (n.artifacts config home) (n'.artifacts config home)
      (m.artifacts config q) (m'.artifacts config q) := by
  induction h generalizing q with
  | here => exact ⟨q, .refl _ _⟩
  | @part info before after v v' h ih =>
    obtain ⟨home, hd⟩ := ih q
    refine ⟨home, ?_⟩
    rw [artifacts_composite, artifacts_composite]
    refine hd.extend (.cons ?_ (.refl _)) (.refl _)
    have hface : (Node.value v).reference config q = (Node.value v').reference config q :=
      (h.sameFace hf).reference config q
    have hfields : (before ++ v :: after).map (ValueObject.reference (config.valuePackageOf q)) =
        (before ++ v' :: after).map (ValueObject.reference (config.valuePackageOf q)) :=
      map_eq_of_middle before after hface
    rw [unsourced_composite, unsourced_composite, hfields]
  | @member info isRoot sub before after m m' h ih =>
    have hface := h.sameFace hf
    obtain ⟨home, hd⟩ := ih (m.packageIn q)
    refine ⟨home, ?_⟩
    rw [artifacts_entity, artifacts_entity, ← hface.packageIn q]
    refine hd.extend (.cons ?_ (.refl _)) (.refl _)
    unfold entityArtifact unsourced
    rw [map_eq_of_middle before after (hface.reference config q)]

end Schema

/-- Changes stay local. When a node of a tree is replaced by one with the same face, its artifacts
give way to those of the other node, which stand in the same package. All artifacts before and
after them keep their qualified names, their texts and their files. -/
theorem artifacts_local {tree tree' : Tree} (hr : Tree.Replaced n n' tree tree')
    (hf : n.SameFace n') (h : tree.artifacts config package = .ok artifacts)
    (h' : tree'.artifacts config package = .ok artifacts') :
    ∃ home pre post pre' post',
      artifacts = pre ++ n.artifacts config home ++ post ∧
      artifacts' = pre' ++ n'.artifacts config home ++ post' ∧
      pre.map (fun a => (a.qualifiedName, a.render config)) =
        pre'.map (fun a => (a.qualifiedName, a.render config)) ∧
      post.map (fun a => (a.qualifiedName, a.render config)) =
        post'.map (fun a => (a.qualifiedName, a.render config)) ∧
      ∀ root, pre.map (Artifact.job config root) = pre'.map (Artifact.job config root) ∧
        post.map (Artifact.job config root) = post'.map (Artifact.job config root) := by
  obtain ⟨rfl, -⟩ := Tree.artifacts_eq_ok h
  obtain ⟨rfl, -⟩ := Tree.artifacts_eq_ok h'
  obtain ⟨info, isRoot, sub, before, after, hr⟩ := hr
  have hnode : n.Replaced n' (.entity info isRoot sub (before ++ _ :: after))
      (.entity info isRoot sub (before ++ _ :: after)) := .member info isRoot sub before after hr
  obtain ⟨home, pre, post, pre', post', heq, heq', hpre, hpost⟩ :=
    hnode.differWithin hf config package
  have hfile : ∀ a : Artifact, (a.unsourced.qualifiedName, a.unsourced.render config) =
      (a.qualifiedName, a.render config) := fun a => by rw [render_unsourced]; rfl
  have hjob : ∀ (root : Path) (a : Artifact), a.unsourced.job config root = a.job config root :=
    fun root a => by unfold Artifact.job; rw [render_unsourced]; rfl
  exact ⟨home, pre, post, pre', post', heq, heq', hpre.map_eq hfile, hpost.map_eq hfile,
    fun root => ⟨hpre.map_eq (hjob root), hpost.map_eq (hjob root)⟩⟩

/-- A sum that has become two numbers, in the place of the plain one of the nested tree. -/
def Schema.splitSum : ValueObject :=
  .composite ⟨"value", "a sum", .single, [.child 1, .child 0]⟩
    [.leaf ⟨"units", "whole units", .single, [.child 1, .child 0, .child 0]⟩ .long,
      .leaf ⟨"cents", "the rest", .single, [.child 1, .child 0, .child 1]⟩ .integer]

/-- The nested tree with the split sum. -/
def Schema.nestedSplit : Tree where
  info := nested.info
  isRoot := true
  subPackage := none
  members :=
    [.entity ⟨"orderItem", "an item", .multi, [.child 0]⟩ false (some "item") [],
      .value (.composite ⟨"total_amount", "what is due", .single, [.child 1]⟩
        [splitSum, currency])]

theorem artifacts_local_nested :
    ∃ home pre post pre' post',
      nested.node.artifacts {} "shop.domain" = pre ++ (Node.artifacts {} home
        (.value (.leaf ⟨"value", "a sum", .single, [.child 1, .child 0]⟩ .decimal))) ++ post ∧
      nestedSplit.node.artifacts {} "shop.domain" =
        pre' ++ (Node.value splitSum).artifacts {} home ++ post' ∧
      pre.map (fun a => (a.qualifiedName, a.render {})) =
        pre'.map (fun a => (a.qualifiedName, a.render {})) ∧
      post.map (fun a => (a.qualifiedName, a.render {})) =
        post'.map (fun a => (a.qualifiedName, a.render {})) := by
  have hr : Tree.Replaced
      (.value (.leaf ⟨"value", "a sum", .single, [.child 1, .child 0]⟩ .decimal))
      (.value splitSum) nested nestedSplit :=
    .member _ _ _ [_] [] (.part _ [] [_] .here)
  have h : nested.artifacts {} "shop.domain" = .ok (nested.node.artifacts {} "shop.domain") := rfl
  have h' : nestedSplit.artifacts {} "shop.domain" =
      .ok (nestedSplit.node.artifacts {} "shop.domain") := rfl
  obtain ⟨home, pre, post, pre', post', heq, heq', hpre, hpost, -⟩ :=
    artifacts_local hr ⟨rfl, rfl, rfl, rfl, rfl⟩ h h'
  exact ⟨home, pre, post, pre', post', heq, heq', hpre, hpost⟩

end DomainCodegen
