import DomainCodegen.Proofs.Schema.SourcePath
import DomainCodegen.Proofs.Schema.Usable

/-!
# Nodes in pre-order

The nodes of a tree in document order, each before the nodes inside it and with the trail that leads
to it from the root. A child of a node of the tree is a node of the tree, one step further on its
trail (`child_mem_spots`), and no node of a well-formed tree occurs twice
(`Tree.WellFormed.nodup_nodes`).
-/

namespace DomainCodegen.Schema

variable {node : Node} {v : ValueObject} {trail : List Node} {s : Spot}

/-! ## Induction -/

/-- What holds of a composite if it holds of its parts holds of every value object. -/
theorem ValueObject.induction {motive : ValueObject → Prop}
    (leaf : ∀ info primitive, motive (.leaf info primitive))
    (composite : ∀ info parts, (∀ part ∈ parts, motive part) → motive (.composite info parts))
    (enumeration : ∀ info variants, motive (.enumeration info variants)) :
    ∀ v, motive v
  | .leaf info primitive => leaf info primitive
  | .composite info parts =>
    composite info parts fun part _ => induction leaf composite enumeration part
  | .enumeration info variants => enumeration info variants

/-- What holds of an entity if it holds of its members holds of every node. -/
theorem Node.induction {motive : Node → Prop} (value : ∀ v, motive (.value v))
    (entity : ∀ info isRoot sub members, (∀ m ∈ members, motive m) →
      motive (.entity info isRoot sub members)) :
    ∀ node, motive node
  | .value v => value v
  | .entity info isRoot sub members =>
    entity info isRoot sub members fun m _ => induction value entity m

/-! ## Spots -/

/-- The nodes that stand right inside a node. -/
def Node.children : Node → List Node
  | .value (.composite _ parts) => parts.map .value
  | .value _ => []
  | .entity _ _ _ members => members

/-- A node of a tree, with the nodes that lead to it from the root. The trail leaves the root out
and ends in the node, so the one of the root is empty. -/
structure Spot where
  trail : List Node
  node : Node

mutual

def ValueObject.spots (trail : List Node) : ValueObject → List Spot
  | .composite info parts => ⟨trail, .value (.composite info parts)⟩ :: spotsOfParts trail parts
  | v => [⟨trail, .value v⟩]

def spotsOfParts (trail : List Node) : List ValueObject → List Spot
  | [] => []
  | v :: r => v.spots (trail ++ [.value v]) ++ spotsOfParts trail r

end

mutual

/-- The nodes at and below a node in document order. -/
def Node.spots (trail : List Node) : Node → List Spot
  | .value v => v.spots trail
  | .entity info isRoot sub members =>
    ⟨trail, .entity info isRoot sub members⟩ :: spotsOfMembers trail members

def spotsOfMembers (trail : List Node) : List Node → List Spot
  | [] => []
  | m :: r => m.spots (trail ++ [m]) ++ spotsOfMembers trail r

end

def Tree.spots (t : Tree) : List Spot := t.node.spots []

/-- The nodes of a tree in pre-order. -/
def Tree.nodes (t : Tree) : List Node := t.spots.map Spot.node

theorem spotsOfParts_eq (trail : List Node) (parts : List ValueObject) :
    spotsOfParts trail parts = parts.flatMap fun v => v.spots (trail ++ [.value v]) := by
  induction parts with
  | nil => rfl
  | cons v r ih => rw [spotsOfParts, ih, List.flatMap_cons]

theorem spotsOfMembers_eq (trail members : List Node) :
    spotsOfMembers trail members = members.flatMap fun m => m.spots (trail ++ [m]) := by
  induction members with
  | nil => rfl
  | cons m r ih => rw [spotsOfMembers, ih, List.flatMap_cons]

theorem ValueObject.head_spots (v : ValueObject) (trail : List Node) :
    ⟨trail, .value v⟩ ∈ v.spots trail := by
  cases v <;> exact List.mem_cons_self

theorem Node.head_spots (node : Node) (trail : List Node) : ⟨trail, node⟩ ∈ node.spots trail := by
  cases node with
  | value v => exact v.head_spots trail
  | entity info isRoot sub members => exact List.mem_cons_self

theorem ValueObject.child_mem_spots (hs : s ∈ v.spots trail) {c : Node}
    (hc : c ∈ s.node.children) : ⟨s.trail ++ [c], c⟩ ∈ v.spots trail := by
  induction v using ValueObject.induction generalizing trail with
  | leaf info primitive =>
    obtain rfl := List.mem_singleton.mp hs
    cases hc
  | enumeration info variants =>
    obtain rfl := List.mem_singleton.mp hs
    cases hc
  | composite info parts ih =>
    rw [spots, spotsOfParts_eq, List.mem_cons, List.mem_flatMap] at hs ⊢
    rcases hs with rfl | ⟨part, hp, hs⟩
    · obtain ⟨part, hp, rfl⟩ := List.mem_map.mp hc
      exact .inr ⟨part, hp, part.head_spots _⟩
    · exact .inr ⟨part, hp, ih part hp hs⟩

/-- A child of a node of a tree is a node of the tree, one step further. -/
theorem Node.child_mem_spots (hs : s ∈ node.spots trail) {c : Node} (hc : c ∈ s.node.children) :
    ⟨s.trail ++ [c], c⟩ ∈ node.spots trail := by
  induction node using Node.induction generalizing trail with
  | value v => exact v.child_mem_spots hs hc
  | entity info isRoot sub members ih =>
    rw [spots, spotsOfMembers_eq, List.mem_cons, List.mem_flatMap] at hs ⊢
    rcases hs with rfl | ⟨m, hm, hs⟩
    · exact .inr ⟨c, hc, c.head_spots _⟩
    · exact .inr ⟨m, hm, ih m hm hs⟩

/-! ## Usable spots -/

theorem ValueObject.Usable.of_mem_spots (h : v.Usable) (hs : s ∈ v.spots trail) :
    s.node.Usable := by
  induction h generalizing trail with
  | leaf hi primitive =>
    obtain rfl := List.mem_singleton.mp hs
    exact .value (.leaf hi primitive)
  | enumeration hi variants =>
    obtain rfl := List.mem_singleton.mp hs
    exact .value (.enumeration hi variants)
  | composite hi hparts ih =>
    rw [spots, spotsOfParts_eq, List.mem_cons, List.mem_flatMap] at hs
    rcases hs with rfl | ⟨part, hp, hs⟩
    · exact .value (.composite hi hparts)
    · exact ih part hp hs

/-- Every node of a usable tree is usable. -/
theorem Node.Usable.of_mem_spots (h : node.Usable) (hs : s ∈ node.spots trail) :
    s.node.Usable := by
  induction h generalizing trail with
  | value hv => exact hv.of_mem_spots hs
  | entity hi isRoot hsub hmembers ih =>
    rw [spots, spotsOfMembers_eq, List.mem_cons, List.mem_flatMap] at hs
    rcases hs with rfl | ⟨m, hm, hs⟩
    · exact .entity hi isRoot hsub hmembers
    · exact ih m hm hs

/-! ## Places -/

theorem ValueObject.places_eq (v : ValueObject) (trail : List Node) :
    v.places = (v.spots trail).map fun s => s.node.info.place := by
  induction v using ValueObject.induction generalizing trail with
  | leaf info primitive => rfl
  | enumeration info variants => rfl
  | composite info parts ih =>
    rw [places, spots, placesOfParts_eq, spotsOfParts_eq, List.map_cons, List.map_flatMap]
    congr 1
    exact List.flatMap_congr fun part hp => ih part hp _

theorem Node.places_eq (node : Node) (trail : List Node) :
    node.places = (node.spots trail).map fun s => s.node.info.place := by
  induction node using Node.induction generalizing trail with
  | value v => exact v.places_eq trail
  | entity info isRoot sub members ih =>
    rw [places, spots, placesOfMembers_eq, spotsOfMembers_eq, List.map_cons, List.map_flatMap]
    congr 1
    exact List.flatMap_congr fun m hm => ih m hm _

/-- The nodes of a well-formed tree stand at different places. -/
theorem Tree.WellFormed.nodup_nodes {tree : Tree} (h : tree.WellFormed) :
    (tree.nodes.map fun node => node.info.place).Nodup := by
  have hplaces := h.apartBelow.nodup
  rw [tree.node.places_eq []] at hplaces
  rw [Tree.nodes, List.map_map]
  exact hplaces

end DomainCodegen.Schema
