import RoutePattern.Error
import RoutePattern.Graph.Basic

/-!
# The walks of a graph

`walks` lists every walk of a graph from state 0 to an end state, depth first and the first edge
first, as the path of the kinds that it meets. Edges that leave an end state are not followed.

A walk may take as many edges as the graph has states: it visits no more states than that before
it has met one of them twice, so a walk with an edge too many has run into a cycle. The number of
edges that are left to a walk is what the search recurses on.
-/

namespace RoutePattern

variable {τ : Type}

/-- Adds to `found` the walks that go on from the state `id` with at most `room` edges. `trail`
holds the kinds met before it, the last one first. -/
def exploreFrom (graph : Graph τ) : (room id : Nat) → (trail : Path τ) →
    (found : Array (Path τ)) → Except PatternError (Array (Path τ))
  | room, id, trail, found =>
    match graph[id]? with
    | none => .error (.malformed (.unknownTarget id))
    | some state =>
      let trail := state.kind :: trail
      if state.kind.isAccept then
        if found.size = maxPaths then .error .tooManyPaths else .ok (found.push trail.reverse)
      else match room with
        | 0 => if state.next.isEmpty then .ok found else .error (.malformed .cycle)
        | room + 1 =>
          state.next.toList.foldlM (fun found target => exploreFrom graph room target trail found)
            found

/-- The paths of all walks from the start state to an end state, in priority order. -/
def walks (graph : Graph τ) : Except PatternError (List (Path τ)) :=
  match graph[0]?.map State.kind with
  | some .start => do
    let found ← exploreFrom graph graph.size 0 [] #[]
    return found.toList.map List.tail
  | _ => .error (.malformed .missingStart)

end RoutePattern
