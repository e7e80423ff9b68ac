import RoutePattern.Graph.Wiring

/-!
# From a tree to a graph

`compile` makes one state of each literal and parameter of a tree, between a start and an end
state. Neighbours of a sequence are connected through `Junction.links`, so alternatives become
branches of the graph.

An optional element is bypassed: each state with an edge into it gets an edge to each state that
it has edges to. Bypasses are added last, an optional element before those inside it, and read
off the graph as it is then; so taking an element comes before leaving it out, and a bypass of an
element leads on to what follows the neighbours that were bypassed before.
-/

namespace RoutePattern

namespace Wiring

/-! ## Around an element -/

mutual

/-- The states with an edge into a node. -/
def intoNode (wiring : Wiring) : Node → List Nat
  | .group _ alternatives _ => wiring.intoFirsts alternatives
  | .literal id _ => wiring.sources id
  | .parameter id _ _ => wiring.sources id
  | .separator id => wiring.sources id

/-- The states with an edge into the first node of an alternative. -/
def intoFirsts (wiring : Wiring) : List (List Node) → List Nat
  | [] => []
  | alternative :: rest => wiring.intoFirst alternative ++ wiring.intoFirsts rest

/-- The states with an edge into the first node of a sequence. -/
def intoFirst (wiring : Wiring) : List Node → List Nat
  | [] => []
  | first :: _ => wiring.intoNode first

end

mutual

/-- The states that a node has edges to. -/
def outOfNode (wiring : Wiring) : Node → List Nat
  | .group _ alternatives _ => wiring.outOfLasts alternatives
  | .literal id _ => wiring.next id
  | .parameter id _ _ => wiring.next id
  | .separator id => wiring.next id

/-- The states that the last node of an alternative has edges to. -/
def outOfLasts (wiring : Wiring) : List (List Node) → List Nat
  | [] => []
  | alternative :: rest => wiring.outOfLast alternative ++ wiring.outOfLasts rest

/-- The states that the last node of a sequence has edges to. -/
def outOfLast (wiring : Wiring) : List Node → List Nat
  | [] => []
  | [last] => wiring.outOfNode last
  | _ :: rest => wiring.outOfLast rest

end

/-! ## Bypasses -/

/-- The edges that let a walk leave a node out. -/
def bypassLinks (wiring : Wiring) (junctions : Junctions) (node : Node) : List (Nat × Nat) :=
  let targets := wiring.outOfNode node
  (wiring.intoNode node).flatMap fun source =>
    targets.flatMap fun target => (junctions.find source).links (junctions.find target)

mutual

/-- The bypasses of a node and of the nodes inside it. -/
def bypass? (junctions : Junctions) (wiring : Wiring) (node : Node) : Except Fault Wiring :=
  match node with
  | .group id alternatives true => do
    let wiring ← wiring.connectAll?
      (wiring.bypassLinks junctions (.group id alternatives true))
    bypassAlternatives? junctions wiring alternatives
  | .group _ alternatives false => bypassAlternatives? junctions wiring alternatives
  | .parameter id name true =>
    wiring.connectAll? (wiring.bypassLinks junctions (.parameter id name true))
  | _ => .ok wiring

/-- The bypasses inside the alternatives of a group. -/
def bypassAlternatives? (junctions : Junctions) (wiring : Wiring) :
    List (List Node) → Except Fault Wiring
  | [] => .ok wiring
  | alternative :: rest => do
    bypassAlternatives? junctions (← bypassSequence? junctions wiring alternative) rest

/-- The bypasses of the nodes of a sequence. -/
def bypassSequence? (junctions : Junctions) (wiring : Wiring) :
    List Node → Except Fault Wiring
  | [] => .ok wiring
  | node :: rest => do bypassSequence? junctions (← bypass? junctions wiring node) rest

end

end Wiring

/-- The greatest id of the nodes. -/
def greatestId (nodes : List Node) : Nat := nodes.foldl (fun greatest node => max greatest node.id) 0

/-- The edges from the start state through the sequence to the end state. -/
def outerLinks (junctions : Junctions) (last : Nat) (nodes : List Node) : List (Nat × Nat) :=
  let junction id := junctions.find id
  let inner := nodes.map fun node => junction node.id
  match nodes with
  | [] => []
  | node :: rest =>
    (junction 0).links (junction node.id) ++ Junction.linksInside inner ++
      (junction ((node :: rest).getLast (by simp)).id).links (junction last)

/-- The graph of a tree, or why there is none. Its first state is the start state and its last
state the end state. -/
def compile (nodes : List Node) : Except PatternError (Graph Unit) :=
  let result : Except Fault (Graph Unit) := do
    if nodes.isEmpty then throw .emptySequence
    let inventory ← Node.inventoryOfSequence nodes
    let junctions := Junctions.ofNodes inventory
    let last := greatestId inventory + 1
    let states : Wiring := inventory.foldl Wiring.addNode ∅
    let wiring ← ((states.addState 0 .start).addState last (.accept ())).connectAll?
      (outerLinks junctions last nodes)
    let wiring ← Wiring.bypassSequence? junctions wiring nodes
    if !(wiring.next last).isEmpty then throw .edgeAfterEnd
    return wiring.toGraph
  match result with
  | .ok graph => .ok graph
  | .error fault => .error (.malformed fault)

end RoutePattern
