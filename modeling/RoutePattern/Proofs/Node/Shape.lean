import RoutePattern.Graph.Basic
import RoutePattern.Proofs.Node.Tree

/-!
# Shapes of trees

`Shape` is what is left of a tree when only the order of its leaves counts, the literals and
parameters. A sequence is a chain of joins and a group a chain of choices. An optional node is a
choice between the node and `skip`, and with `skips = false` it is read as if it was not optional.

`Shape.ways` lists the ways through a shape as the leaves that they meet, in the declared order:
an earlier alternative first, and an optional node taken before it is left out.
-/

namespace RoutePattern

/-- A literal or a parameter of a tree, as a state of a graph. -/
structure Leaf where
  id : Nat
  kind : Kind Unit
deriving Repr, DecidableEq

/-- In which order the leaves of a tree can be met. -/
inductive Shape where
  /-- There is no way through. -/
  | nothing
  /-- The only way meets no leaf. -/
  | skip
  /-- The only way meets this leaf. -/
  | one (leaf : Leaf)
  /-- A way through the first shape, then one through the second. -/
  | join (first second : Shape)
  /-- A way through one of the two, the first one first. -/
  | choice (first second : Shape)
deriving Repr, DecidableEq

namespace Shape

/-- The shape, or no leaf if `optional`. -/
def orSkip (shape : Shape) (optional : Bool) : Shape :=
  if optional then .choice shape .skip else shape

/-- The ways through a shape, in the declared order. -/
def ways : Shape → List (List Leaf)
  | nothing => []
  | skip => [[]]
  | one leaf => [[leaf]]
  | join first second => first.ways.flatMap fun lead => second.ways.map (lead ++ ·)
  | choice first second => first.ways ++ second.ways

/-- The leaves of a shape in reading order. -/
def leaves : Shape → List Leaf
  | nothing => []
  | skip => []
  | one leaf => [leaf]
  | join first second => first.leaves ++ second.leaves
  | choice first second => first.leaves ++ second.leaves

@[simp] theorem orSkip_false (shape : Shape) : shape.orSkip false = shape := rfl

@[simp] theorem leaves_orSkip (shape : Shape) (optional : Bool) :
    (shape.orSkip optional).leaves = shape.leaves := by
  cases optional <;> simp [orSkip, leaves]

/-- A way meets leaves of the shape only. -/
theorem mem_leaves_of_mem_ways {shape : Shape} {way : List Leaf} (h : way ∈ shape.ways)
    {leaf : Leaf} (hleaf : leaf ∈ way) : leaf ∈ shape.leaves := by
  induction shape generalizing way with
  | nothing => simp [ways] at h
  | skip =>
    obtain rfl := List.mem_singleton.1 h
    simp at hleaf
  | one other =>
    obtain rfl := List.mem_singleton.1 h
    exact hleaf
  | join first second ihf ihs =>
    obtain ⟨lead, hlead, h⟩ := List.mem_flatMap.1 h
    obtain ⟨others, hothers, rfl⟩ := List.mem_map.1 h
    exact List.mem_append.2 ((List.mem_append.1 hleaf).imp (ihf hlead) (ihs hothers))
  | choice first second ihf ihs =>
    rcases List.mem_append.1 h with h | h
    · exact List.mem_append_left _ (ihf h hleaf)
    · exact List.mem_append_right _ (ihs h hleaf)

end Shape

namespace Node

mutual

/-- The shape of a node; optional nodes can be left out if `skips`. -/
def shape (skips : Bool) : Node → Shape
  | literal id text => .one ⟨id, .fixed text⟩
  | parameter id name optional => (Shape.one ⟨id, .capture name⟩).orSkip (skips && optional)
  | group _ alternatives optional => (shapeOfAll skips alternatives).orSkip (skips && optional)
  | separator _ => .nothing

/-- The shape of a sequence. -/
def shapeOfSequence (skips : Bool) : List Node → Shape
  | [] => .skip
  | node :: rest => .join (node.shape skips) (shapeOfSequence skips rest)

/-- The shape of the alternatives of a group. -/
def shapeOfAll (skips : Bool) : List (List Node) → Shape
  | [] => .nothing
  | alternative :: rest => .choice (shapeOfSequence skips alternative) (shapeOfAll skips rest)

end

/-- A literal or a parameter as a leaf; other nodes are none. -/
def leaf? : Node → Option Leaf
  | literal id text => some ⟨id, .fixed text⟩
  | parameter id name _ => some ⟨id, .capture name⟩
  | group .. => none
  | separator _ => none

mutual

/-- The leaves are the literals and parameters in reading order, whatever can be left out. -/
theorem leaves_shape (skips : Bool) :
    (node : Node) → (node.shape skips).leaves = node.members.filterMap leaf?
  | literal .. => rfl
  | parameter .. => by
    rw [shape, Shape.leaves_orSkip]
    rfl
  | group id alternatives optional => by
    rw [shape, Shape.leaves_orSkip, leaves_shapeOfAll skips alternatives]
    rfl
  | separator .. => rfl

theorem leaves_shapeOfSequence (skips : Bool) : (nodes : List Node) →
    (shapeOfSequence skips nodes).leaves = (membersOfSequence nodes).filterMap leaf?
  | [] => rfl
  | node :: rest => by
    rw [shapeOfSequence, Shape.leaves, leaves_shape skips node, leaves_shapeOfSequence skips rest,
      membersOfSequence, List.filterMap_append]

theorem leaves_shapeOfAll (skips : Bool) : (alternatives : List (List Node)) →
    (shapeOfAll skips alternatives).leaves = (membersOfAll alternatives).filterMap leaf?
  | [] => rfl
  | alternative :: rest => by
    rw [shapeOfAll, Shape.leaves, leaves_shapeOfSequence skips alternative,
      leaves_shapeOfAll skips rest, membersOfAll, List.filterMap_append]

end

/-- The literals and parameters of a sequence, and of the groups in it, in reading order. -/
def leavesOf (nodes : List Node) : List Leaf := (membersOfSequence nodes).filterMap leaf?

/-- What can be left out is no matter for the leaves. -/
theorem leaves_shape_eq (node : Node) : (node.shape true).leaves = (node.shape false).leaves := by
  rw [leaves_shape, leaves_shape]

/-- Nor is it for those of a sequence. -/
theorem leaves_shapeOfSequence_eq (nodes : List Node) :
    (shapeOfSequence true nodes).leaves = (shapeOfSequence false nodes).leaves := by
  rw [leaves_shapeOfSequence, leaves_shapeOfSequence]

/-- A leaf has the id of its node. -/
theorem id_eq_of_leaf? {node : Node} {leaf : Leaf} (h : node.leaf? = some leaf) :
    leaf.id = node.id := by
  cases node with
  | literal id text => exact (Option.some.inj h) ▸ rfl
  | parameter id name optional => exact (Option.some.inj h) ▸ rfl
  | group id alternatives optional => simp [leaf?] at h
  | separator id => simp [leaf?] at h

theorem isAccept_of_leaf? {node : Node} {leaf : Leaf} (h : node.leaf? = some leaf) :
    leaf.kind.isAccept = false := by
  cases node with
  | literal id text => exact (Option.some.inj h) ▸ rfl
  | parameter id name optional => exact (Option.some.inj h) ▸ rfl
  | group id alternatives optional => simp [leaf?] at h
  | separator id => simp [leaf?] at h

/-- The ids of the leaves stand among those of the nodes in the same order. -/
theorem filterMap_leaf?_sublist (nodes : List Node) :
    ((nodes.filterMap leaf?).map Leaf.id).Sublist (nodes.map Node.id) := by
  induction nodes with
  | nil => exact .slnil
  | cons node nodes ih =>
    cases h : node.leaf? with
    | none =>
      rw [List.filterMap_cons_none h]
      exact ih.cons _
    | some leaf =>
      rw [List.filterMap_cons_some h, List.map_cons, List.map_cons, id_eq_of_leaf? h]
      exact ih.cons_cons _

end Node

end RoutePattern
