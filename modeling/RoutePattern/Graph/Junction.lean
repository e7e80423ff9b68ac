import RoutePattern.Node.Basic
import RoutePattern.Error
import Std.Data.TreeMap

/-!
# Junctions

Groups are no states of a graph. An edge to a group leads to the first nodes of its alternatives,
and an edge from a group leaves the last ones. `Junction` is what is left of a node when only this
routing counts: a state, or the alternatives of a group.

`junctions` says which junction an id of a tree stands for. An id that several nodes carry stands
for the last of them in reading order. The nodes of a group come after the group itself, so the
junctions are found from the last node to the first, each from those already found.
-/

namespace RoutePattern

/-- Where an edge to or from an id is led. -/
inductive Junction where
  /-- To the state of that id. -/
  | state (id : Nat)
  /-- Through the alternatives of a group. -/
  | group (alternatives : List (List Junction))

namespace Junction

mutual

/-- The states that an edge into a junction leads to. -/
def entries : Junction → List Nat
  | state id => [id]
  | group alternatives => entriesOfAll alternatives

/-- The states that an edge into one of the alternatives leads to. -/
def entriesOfAll : List (List Junction) → List Nat
  | [] => []
  | alternative :: rest => entriesOfFirst alternative ++ entriesOfAll rest

/-- The states that an edge into a sequence leads to. -/
def entriesOfFirst : List Junction → List Nat
  | [] => []
  | first :: _ => entries first

end

mutual

/-- The edges, in order, that lead from one junction to another, and those inside the first one. -/
def links : (source target : Junction) → List (Nat × Nat)
  | state id, target => target.entries.map fun entry => (id, entry)
  | group alternatives, target => linksOfAll alternatives target

/-- The edges from the last nodes of the alternatives, and those inside the alternatives. -/
def linksOfAll : (alternatives : List (List Junction)) → (target : Junction) → List (Nat × Nat)
  | [], _ => []
  | alternative :: rest, target =>
    linksOfLast alternative target ++ linksInside alternative ++ linksOfAll rest target

/-- The edges from the last node of a sequence. -/
def linksOfLast : (sequence : List Junction) → (target : Junction) → List (Nat × Nat)
  | [], _ => []
  | [last], target => links last target
  | _ :: rest, target => linksOfLast rest target

/-- The edges between neighbours of a sequence. -/
def linksInside : List Junction → List (Nat × Nat)
  | [] => []
  | [_] => []
  | first :: second :: rest => links first second ++ linksInside (second :: rest)

end

end Junction

/-! ## The junctions of a tree -/

namespace Node

mutual

/-- The node and the nodes inside it in reading order, or the first reason why no graph can be
made of them. -/
def inventory : Node → Except Fault (List Node)
  | literal id text => .ok [literal id text]
  | parameter id name optional => .ok [parameter id name optional]
  | group id alternatives optional => do
    return group id alternatives optional :: (← inventoryOfAll alternatives)
  | separator _ => .error .separatorLeft

/-- The nodes of a sequence and inside it. -/
def inventoryOfSequence : List Node → Except Fault (List Node)
  | [] => .ok []
  | node :: rest => do
    let first ← inventory node
    let others ← inventoryOfSequence rest
    return first ++ others

/-- The nodes of the alternatives and inside them. -/
def inventoryOfAll : List (List Node) → Except Fault (List Node)
  | [] => .ok []
  | [] :: _ => .error .emptyAlternative
  | (node :: nodes) :: rest => do
    let first ← inventoryOfSequence (node :: nodes)
    let others ← inventoryOfAll rest
    return first ++ others

end

end Node

/-- The junctions that the ids of a tree stand for. -/
abbrev Junctions := Std.TreeMap Nat Junction

namespace Junctions

/-- The junction of an id; an id that no node carries is that of a state. -/
def find (junctions : Junctions) (id : Nat) : Junction := (junctions[id]?).getD (.state id)

/-- The junction of a node, by the junctions of the nodes inside it. -/
def ofNode (inner : Junctions) : Node → Junction
  | .group _ alternatives _ => .group (alternatives.map (·.map fun node => inner.find node.id))
  | node => .state node.id

/-- The junctions of the nodes that are listed in reading order. -/
def ofNodes : List Node → Junctions
  | [] => ∅
  | node :: later =>
    let inner := ofNodes later
    if inner.contains node.id then inner else inner.insert node.id (ofNode inner node)

end Junctions

end RoutePattern
