import RoutePattern.Proofs.Graph.Listing

/-!
# The traversals of the graph of a tree

A traversal goes from the start state to an end state, and says of each state which of its edges
it takes. The graph of a tree has a state for each leaf, in the order of the ids, and the states
that its traversals come to are those of the ways through the tree (`IsTree.traversals`). No state
has two edges to the same state, so each way is gone in one traversal only.
-/

namespace RoutePattern

open Node Wiring

variable {τ : Type}

/-- A traversal of a graph from a state to an end state: the edges that it takes, by their places
among the edges of their states, and the states that it comes to. -/
inductive Traversal (graph : Graph τ) : (place : Nat) → (edges states : List Nat) → Prop
  | stop {place : Nat} {state : State τ} (hstate : graph[place]? = some state)
      (hkind : state.kind.isAccept = true) : Traversal graph place [] []
  | step {place target edge : Nat} {state : State τ} {edges states : List Nat}
      (hstate : graph[place]? = some state) (hedge : state.next[edge]? = some target)
      (hrest : Traversal graph target edges states) :
      Traversal graph place (edge :: edges) (target :: states)

/-- Where no state has an edge twice, the states that a traversal comes to tell its edges. -/
theorem Traversal.edges_eq {graph : Graph τ}
    (hnodup : ∀ (place : Nat) state, graph[place]? = some state → state.next.toList.Nodup)
    {place : Nat} {edges others states : List Nat} (h : Traversal graph place edges states)
    (hother : Traversal graph place others states) : edges = others := by
  induction h generalizing others with
  | stop _ _ =>
    cases hother with
    | stop _ _ => rfl
  | @step place target edge state edges states hstate hedge _ ih =>
    cases hother with
    | @step _ _ other _ others _ hsame hotherEdge hrest =>
      obtain rfl := Option.some.inj (hsame.symm.trans hstate)
      rw [ih hrest]
      congr 1
      rw [← Array.getElem?_toList] at hedge hotherEdge
      exact (List.getElem?_inj (List.getElem?_eq_some_iff.1 hedge).1 (hnodup _ _ hstate)).1
        (hedge.trans hotherEdge.symm)

namespace Wiring

variable {wiring : Wiring} {last : Nat}

theorem nodup_next_toGraph (h : wiring.Simple) (hclosed : ∀ edge ∈ wiring.edges, edge.2 ∈ wiring)
    {place : Nat} {state : State Unit} (hstate : wiring.toGraph[place]? = some state) :
    state.next.toList.Nodup := by
  obtain ⟨id, own, hown, -, rfl⟩ := exists_of_getElem?_toGraph hstate
  have hnodup := h id
  rw [next_of_getElem? hown] at hnodup
  have hmem (target : Nat) (htarget : target ∈ own.next.toList) : target ∈ wiring :=
    hclosed _ ((mem_edges_iff_of_getElem? hown).2 (Array.mem_toList_iff.1 htarget))
  rw [placed, Array.toList_map]
  exact hnodup.map_on fun _ htarget _ hother heq =>
    place_inj (hmem _ htarget) (hmem _ hother) heq

/-- The traversals of the graph come to the places of the states that the runs come to. -/
theorem exists_traversal_iff (hclosed : ∀ edge ∈ wiring.edges, edge.2 ∈ wiring)
    (haccept : ∀ id kind, wiring.kind? id = some kind → (kind.isAccept = true ↔ id = last))
    {id : Nat} (hid : id ∈ wiring) (states : List Nat) :
    (∃ edges, Traversal wiring.toGraph (wiring.place id) edges states) ↔
      ∃ ids, Run wiring.edges last id ids ∧ states = ids.map wiring.place := by
  constructor
  · rintro ⟨edges, h⟩
    generalize hplace : wiring.place id = place at h
    induction h generalizing id with
    | stop hstate hkind =>
      obtain ⟨own, hown⟩ := mem_iff_exists_getElem?.1 hid
      obtain rfl := Option.some.inj ((hplace ▸ hstate).symm.trans (getElem?_toGraph hown))
      obtain rfl := (haccept id _ (kind?_of_getElem? hown)).1 hkind
      exact ⟨[], .stop, rfl⟩
    | step hstate hedge _ ih =>
      obtain ⟨own, hown⟩ := mem_iff_exists_getElem?.1 hid
      obtain rfl := Option.some.inj ((hplace ▸ hstate).symm.trans (getElem?_toGraph hown))
      obtain ⟨target, htarget, rfl⟩ := Array.mem_map.1 (Array.mem_of_getElem? hedge)
      have hmem := (mem_edges_iff_of_getElem? hown).2 htarget
      obtain ⟨ids, hrun, rfl⟩ := ih (hclosed _ hmem) rfl
      exact ⟨target :: ids, .step hmem hrun, rfl⟩
  · rintro ⟨ids, hrun, rfl⟩
    induction hrun with
    | stop =>
      obtain ⟨own, hown⟩ := mem_iff_exists_getElem?.1 hid
      exact ⟨[], .stop (getElem?_toGraph hown) ((haccept last _ (kind?_of_getElem? hown)).2 rfl)⟩
    | @step id target ids hedge _ ih =>
      obtain ⟨own, hown⟩ := mem_iff_exists_getElem?.1 hid
      obtain ⟨edges, hrest⟩ := ih (hclosed _ hedge)
      have hplaced : wiring.place target ∈ (wiring.placed own).next :=
        Array.mem_map_of_mem ((mem_edges_iff_of_getElem? hown).1 hedge)
      obtain ⟨edge, hget⟩ := Array.mem_iff_getElem?.1 hplaced
      exact ⟨edge :: edges, .step (getElem?_toGraph hown) hget hrest⟩

end Wiring

/-! ## The places of leaves -/

/-- The place of a leaf in the graph of a tree: behind the start state and the leaves with smaller
ids. -/
def placeOf (nodes : List Node) (leaf : Leaf) : Nat :=
  1 + (leavesOf nodes).countP fun other => other.id < leaf.id

theorem idxOf_eq_countP {ids : List Nat} (h : ids.Pairwise (· < ·)) {id : Nat} (hid : id ∈ ids) :
    ids.idxOf id = ids.countP (· < id) := by
  induction ids with
  | nil => simp at hid
  | cons first ids ih =>
    obtain ⟨hfirst, hrest⟩ := List.pairwise_cons.1 h
    rcases List.mem_cons.1 hid with rfl | hmem
    · have hnone : ids.countP (· < id) = 0 := by
        rw [List.countP_eq_zero]
        intro other hother
        have := hfirst other hother
        simp only [decide_eq_true_eq]
        omega
      simp [hnone]
    · have hlt := hfirst id hmem
      rw [List.idxOf_cons_ne _ (Nat.ne_of_lt hlt), ih hrest hmem,
        List.countP_cons_of_pos (by simpa using hlt)]

namespace IsTree

variable {nodes : List Node}

section Wired

variable {wiring : Wiring}
  (hwiring : (statesOf nodes).Rewired wiring
    ((shapeOfSequence true nodes).around {0} {endId nodes}))

include hwiring

/-- The place of a state, by the number of leaves with smaller ids. -/
theorem place_eq_countP (h : IsTree nodes) {id : Nat} (hid : id ∈ wiring) (hpos : 0 < id)
    (hle : id ≤ endId nodes) :
    wiring.place id = 1 + (leavesOf nodes).countP fun leaf => leaf.id < id := by
  have hend : [endId nodes].countP (· < id) = 0 := by simpa using hle
  rw [place_eq_idxOf hid, idxOf_eq_countP (pairwise_keys wiring) (Std.TreeMap.mem_keys.2 hid),
    (h.keys_perm hwiring).countP_eq, idsInOrder, leaves_shapeOfSequence,
    List.countP_cons_of_pos (by simpa using hpos), List.countP_append, List.countP_map, hend,
    Nat.add_zero, Nat.add_comm]
  rfl

theorem place_leaf (h : IsTree nodes) {leaf : Leaf} (hleaf : leaf ∈ leavesOf nodes) :
    leaf.id ∈ wiring ∧ wiring.place leaf.id = placeOf nodes leaf := by
  obtain ⟨hpos, hlt⟩ := h.id_of_leaf hleaf
  have hin : leaf.id ∈ wiring := hwiring.mem_iff.2 (mem_iff_exists_kind?.2 ⟨_, h.kind?_leaf hleaf⟩)
  exact ⟨hin, h.place_eq_countP hwiring hin hpos (Nat.le_of_lt hlt)⟩

theorem place_end (h : IsTree nodes) : wiring.place (endId nodes) = wiring.toGraph.size - 1 := by
  have hall : (leavesOf nodes).countP (fun leaf => leaf.id < endId nodes) =
      (leavesOf nodes).length :=
    List.countP_eq_length.2 fun leaf hleaf => by simpa using (h.id_of_leaf hleaf).2
  rw [h.place_eq_countP hwiring (mem_iff_exists_kind?.2 ⟨_, kind?_end hwiring⟩) (by simp [endId])
    (Nat.le_refl _), hall, size_toGraph hwiring h, leaves_shapeOfSequence, Nat.add_comm]
  rfl

/-- The places that a run along a way comes to. -/
theorem map_place_way (h : IsTree nodes) {way : List Leaf}
    (hway : way ∈ (shapeOfSequence true nodes).ways) :
    (way.map Leaf.id ++ [endId nodes]).map wiring.place =
      way.map (placeOf nodes) ++ [wiring.toGraph.size - 1] := by
  rw [List.map_append, List.map_map, List.map_singleton, h.place_end hwiring]
  congr 1
  refine List.map_congr_left fun leaf hleaf => (h.place_leaf hwiring ?_).2
  rw [leavesOf, ← leaves_shapeOfSequence true]
  exact Shape.mem_leaves_of_mem_ways hway hleaf

end Wired

/-- The graph of a tree has the start state, a state for each leaf and the end state, and its
traversals are the ways through the tree: they come to the places of the leaves of a way and then
to the end state, and no way has two traversals. -/
theorem traversals (h : IsTree nodes) : ∃ graph, compile nodes = .ok graph ∧
    graph.size = (leavesOf nodes).length + 2 ∧
    graph[0]?.map State.kind = some .start ∧
    (∀ leaf ∈ leavesOf nodes, graph[placeOf nodes leaf]?.map State.kind = some leaf.kind) ∧
    (∀ leaf ∈ leavesOf nodes, ∀ other ∈ leavesOf nodes,
      placeOf nodes leaf = placeOf nodes other → leaf = other) ∧
    (∀ states, (∃ edges, Traversal graph 0 edges states) ↔
      ∃ way ∈ waysOfSequence nodes, states = way.map (placeOf nodes) ++ [graph.size - 1]) ∧
    ∀ states edges others, Traversal graph 0 edges states → Traversal graph 0 others states →
      edges = others := by
  obtain ⟨wiring, hcompile, hwiring, hsimple, -⟩ := h.exists_wiring_in_order
  have hzero := zero_mem hwiring
  have hclosed := closed hwiring h
  refine ⟨wiring.toGraph, hcompile, ?_, ?_, ?_, ?_, ?_, ?_⟩
  · rw [size_toGraph hwiring h, leaves_shapeOfSequence]
    rfl
  · have hkind := map_kind_getElem?_toGraph hzero
    rwa [place_zero hzero, kind?_start hwiring] at hkind
  · intro leaf hleaf
    obtain ⟨hmem, hplace⟩ := h.place_leaf hwiring hleaf
    have hkind := map_kind_getElem?_toGraph hmem
    rwa [hplace, hwiring.kind?_eq, h.kind?_leaf hleaf] at hkind
  · intro leaf hleaf other hother heq
    obtain ⟨hmem, hplace⟩ := h.place_leaf hwiring hleaf
    obtain ⟨hotherMem, hotherPlace⟩ := h.place_leaf hwiring hother
    rw [← hplace, ← hotherPlace] at heq
    refine List.inj_on_of_nodup_map ?_ hleaf hother (place_inj hmem hotherMem heq)
    exact (filterMap_leaf?_sublist _).nodup h.nodup
  · intro states
    have hiff := exists_traversal_iff hclosed (isAccept_kind?_iff hwiring h) hzero states
    rw [place_zero hzero] at hiff
    rw [hiff, waysOfSequence_eq]
    simp only [run_start_iff hwiring h]
    constructor
    · rintro ⟨_, ⟨way, hway, rfl⟩, rfl⟩
      exact ⟨way, hway, h.map_place_way hwiring hway⟩
    · rintro ⟨way, hway, rfl⟩
      exact ⟨_, ⟨way, hway, rfl⟩, (h.map_place_way hwiring hway).symm⟩
  · intro states edges others hedges hothers
    exact hedges.edges_eq (fun _ _ => nodup_next_toGraph hsimple hclosed) hothers

end IsTree

/-- A tree whose ids are not in reading order: an optional group whose first alternative begins
with an optional parameter, and an optional parameter behind it. -/
def scatteredTree : List Node :=
  [.group 5 [[.parameter 4 ['a'] true, .literal 1 ['x']], [.literal 3 ['y']]] true,
    .parameter 2 ['b'] true]

theorem traversals_scatteredTree : ∃ graph, compile scatteredTree = .ok graph ∧ graph.size = 6 ∧
    ∀ states, (∃ edges, Traversal graph 0 edges states) ↔
      states ∈ [[4, 1, 2, 5], [4, 1, 5], [1, 2, 5], [1, 5], [3, 2, 5], [3, 5], [2, 5], [5]] := by
  have htree : IsTree scatteredTree :=
    ⟨by decide, by simp [scatteredTree, SoundSequence, Sound, SoundAll], by decide, by decide⟩
  obtain ⟨graph, hcompile, hsize, -, -, -, htraversals, -⟩ := htree.traversals
  have hplaces : (waysOfSequence scatteredTree).map (fun way =>
      way.map (placeOf scatteredTree) ++ [5]) =
        [[4, 1, 2, 5], [4, 1, 5], [1, 2, 5], [1, 5], [3, 2, 5], [3, 5], [2, 5], [5]] := by
    decide +kernel
  have hsix : graph.size = 6 := hsize
  refine ⟨graph, hcompile, hsix, fun states => ?_⟩
  rw [htraversals, hsix, ← hplaces, List.mem_map]
  simp only [eq_comm]

end RoutePattern
