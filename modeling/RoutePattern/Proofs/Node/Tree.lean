import RoutePattern.Graph.Junction
import RoutePattern.Proofs.Except

/-!
# Trees that can be compiled

`IsTree` says what the compiler needs of a sequence of nodes: no sequence and no group is empty,
no separator is left, and the ids are different from each other and from 0. The nodes of such a
tree in reading order are its inventory (`inventoryOfSequence_eq_ok`).
-/

namespace RoutePattern

namespace Node

mutual

/-- The node and the nodes inside it in reading order. -/
def members : Node → List Node
  | literal id text => [literal id text]
  | parameter id name optional => [parameter id name optional]
  | group id alternatives optional => group id alternatives optional :: membersOfAll alternatives
  | separator id => [separator id]

/-- The nodes of a sequence and inside it. -/
def membersOfSequence : List Node → List Node
  | [] => []
  | node :: rest => node.members ++ membersOfSequence rest

/-- The nodes of the alternatives and inside them. -/
def membersOfAll : List (List Node) → List Node
  | [] => []
  | alternative :: rest => membersOfSequence alternative ++ membersOfAll rest

end

mutual

/-- Nothing inside the node is empty, and nothing is a separator. -/
def Sound : Node → Prop
  | literal .. => True
  | parameter .. => True
  | group _ alternatives _ => alternatives ≠ [] ∧ SoundAll alternatives
  | separator _ => False

/-- Nothing inside the nodes of a sequence is empty, and nothing is a separator. -/
def SoundSequence : List Node → Prop
  | [] => True
  | node :: rest => node.Sound ∧ SoundSequence rest

/-- None of the alternatives is empty, nor is anything inside them, and nothing is a separator. -/
def SoundAll : List (List Node) → Prop
  | [] => True
  | alternative :: rest => (alternative ≠ [] ∧ SoundSequence alternative) ∧ SoundAll rest

end

mutual

/-- Where nothing is empty and nothing is a separator, taking the inventory of a node does not fail,
and lists its members. -/
theorem inventory_eq_ok : {node : Node} → node.Sound → node.inventory = .ok node.members
  | literal .., _ => rfl
  | parameter .., _ => rfl
  | group id alternatives optional, h => by
    rw [inventory, inventoryOfAll_eq_ok h.2]
    rfl

theorem inventoryOfSequence_eq_ok : {nodes : List Node} → SoundSequence nodes →
    inventoryOfSequence nodes = .ok (membersOfSequence nodes)
  | [], _ => rfl
  | node :: rest, h => by
    rw [inventoryOfSequence, inventory_eq_ok h.1, inventoryOfSequence_eq_ok h.2]
    rfl

theorem inventoryOfAll_eq_ok : {alternatives : List (List Node)} → SoundAll alternatives →
    inventoryOfAll alternatives = .ok (membersOfAll alternatives)
  | [], _ => rfl
  -- An empty alternative is what the inventory fails on, and a sound tree has none.
  | [] :: rest, h => absurd rfl h.1.1
  | (node :: nodes) :: rest, h => by
    rw [inventoryOfAll, inventoryOfSequence_eq_ok h.1.2, inventoryOfAll_eq_ok h.2]
    rfl

end

/-- The members of a sequence are those of its nodes, one node after the other. -/
theorem membersOfSequence_eq_flatMap (nodes : List Node) :
    membersOfSequence nodes = nodes.flatMap members := by
  induction nodes with
  | nil => rfl
  | cons node nodes ih => rw [membersOfSequence, ih, List.flatMap_cons]

theorem membersOfAll_eq_flatMap (alternatives : List (List Node)) :
    membersOfAll alternatives = alternatives.flatMap membersOfSequence := by
  induction alternatives with
  | nil => rfl
  | cons alternative alternatives ih => rw [membersOfAll, ih, List.flatMap_cons]

/-- A node is one of its own members. -/
theorem mem_members_self (node : Node) : node ∈ node.members := by
  cases node <;> simp [members]

/-- The nodes of a sequence are among its members. -/
theorem mem_membersOfSequence {nodes : List Node} {node : Node} (h : node ∈ nodes) :
    node ∈ membersOfSequence nodes := by
  rw [membersOfSequence_eq_flatMap]
  exact List.mem_flatMap.2 ⟨node, h, node.mem_members_self⟩

/-- So are the nodes of each alternative among those of the alternatives. -/
theorem mem_membersOfAll {alternatives : List (List Node)} {alternative : List Node}
    (h : alternative ∈ alternatives) {node : Node} (hnode : node ∈ alternative) :
    node ∈ membersOfAll alternatives := by
  rw [membersOfAll_eq_flatMap]
  exact List.mem_flatMap.2 ⟨alternative, h, mem_membersOfSequence hnode⟩

end Node

/-- A sequence of nodes that a graph can be made of. -/
structure IsTree (nodes : List Node) : Prop where
  nonempty : nodes ≠ []
  sound : Node.SoundSequence nodes
  nodup : ((Node.membersOfSequence nodes).map Node.id).Nodup
  pos : ∀ node ∈ Node.membersOfSequence nodes, 1 ≤ node.id

end RoutePattern
