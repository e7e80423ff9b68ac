import RoutePattern.Graph.Basic
import RoutePattern.Graph.Junction

/-!
# A graph under construction

While a tree is compiled, states have the ids of their nodes; the start state has id 0 and the
end state an id above all others. `Wiring` holds them by id. `connect?` adds an edge behind the
edges that its source has already, and an edge that is there stays where it is, so the edges of a
state are in the order in which they were first added. `toGraph` gives the states their places in
ascending order of their ids.
-/

namespace RoutePattern

/-- The states of a graph under construction, by id. -/
abbrev Wiring := Std.TreeMap Nat (State Unit)

namespace Wiring

/-- The edges that leave `id`; none if there is no such state. -/
def next (wiring : Wiring) (id : Nat) : List Nat :=
  match wiring[id]? with
  | some state => state.next.toList
  | none => []

/-- The states with an edge to `id`, in ascending order. -/
def sources (wiring : Wiring) (id : Nat) : List Nat :=
  wiring.toList.filterMap fun (source, state) => if state.next.contains id then some source else none

/-- A state of this kind without edges. It takes the place of another one with its id. -/
def addState (wiring : Wiring) (id : Nat) (kind : Kind Unit) : Wiring :=
  wiring.insert id ⟨kind, #[]⟩

/-- The state of a node, unless it is a group. -/
def addNode (wiring : Wiring) : Node → Wiring
  | .literal id text => wiring.addState id (.fixed text)
  | .parameter id name _ => wiring.addState id (.capture name)
  | _ => wiring

/-- An edge is there. -/
def connect? (wiring : Wiring) (source target : Nat) : Except Fault Wiring :=
  if !wiring.contains target then .error (.unknownTarget target)
  else match wiring[source]? with
    | none => .error (.unknownSource source)
    | some state =>
      if state.next.contains target then .ok wiring
      else .ok (wiring.modify source fun state => { state with next := state.next.push target })

/-- All these edges are there, added one after the other. -/
def connectAll? (wiring : Wiring) : List (Nat × Nat) → Except Fault Wiring
  | [] => .ok wiring
  | (source, target) :: rest => do connectAll? (← wiring.connect? source target) rest

/-- The places of the ids in ascending order. -/
def places (wiring : Wiring) : Std.TreeMap Nat Nat :=
  wiring.keys.zipIdx.foldl (fun places (id, place) => places.insert id place) ∅

/-- The states in ascending order of their ids, their edges led to the new places. -/
def toGraph (wiring : Wiring) : Graph Unit :=
  let places := wiring.places
  (wiring.toList.map fun (_, state) =>
    { state with next := state.next.map fun id => places.getD id 0 }).toArray

end Wiring

end RoutePattern
