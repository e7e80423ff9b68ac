import RoutePattern.Proofs.Graph.Traversals
import RoutePattern.Proofs.Node.Numbering

/-!
# The graph of a pattern

The ids of the tree of a pattern grow on every way through it, and a greater id has a greater place
in the graph. So all edges of the graph lead forward, and it has no cycle. Every leaf of the tree is
on a way through it, so every state is on a traversal (`graph_of_parse`).
-/

namespace RoutePattern

/-! ## A way through every leaf -/

namespace Shape

/-- There is a way through the shape, and one through each of its leaves. -/
structure Threaded (shape : Shape) : Prop where
  exists_way : ∃ way, way ∈ shape.ways
  exists_mem : ∀ leaf ∈ shape.leaves, ∃ way ∈ shape.ways, leaf ∈ way

variable {shape first second : Shape}

theorem Threaded.one (leaf : Leaf) : (one leaf).Threaded :=
  ⟨⟨[leaf], List.mem_singleton.2 rfl⟩, fun _ hother => ⟨[leaf], List.mem_singleton.2 rfl, hother⟩⟩

theorem Threaded.skip : skip.Threaded := ⟨⟨[], List.mem_singleton.2 rfl⟩, nofun⟩

/-- A leaf of one part is on a way that goes through the other part anyhow. -/
theorem Threaded.join (hfirst : first.Threaded) (hsecond : second.Threaded) :
    (join first second).Threaded := by
  have hmem {lead others : List Leaf} (hlead : lead ∈ first.ways) (hothers : others ∈ second.ways) :
      lead ++ others ∈ (Shape.join first second).ways :=
    List.mem_flatMap.2 ⟨lead, hlead, List.mem_map_of_mem hothers⟩
  obtain ⟨lead, hlead⟩ := hfirst.exists_way
  obtain ⟨others, hothers⟩ := hsecond.exists_way
  refine ⟨⟨_, hmem hlead hothers⟩, fun leaf hleaf => ?_⟩
  rcases List.mem_append.1 hleaf with hleaf | hleaf
  · obtain ⟨way, hway, hon⟩ := hfirst.exists_mem leaf hleaf
    exact ⟨_, hmem hway hothers, List.mem_append_left _ hon⟩
  · obtain ⟨way, hway, hon⟩ := hsecond.exists_mem leaf hleaf
    exact ⟨_, hmem hlead hway, List.mem_append_right _ hon⟩

/-- It is enough if the first shape has a way and each leaf of the second one is on a way. -/
theorem Threaded.choice (hfirst : first.Threaded)
    (hsecond : ∀ leaf ∈ second.leaves, ∃ way ∈ second.ways, leaf ∈ way) :
    (choice first second).Threaded := by
  obtain ⟨way, hway⟩ := hfirst.exists_way
  refine ⟨⟨way, List.mem_append_left _ hway⟩, fun leaf hleaf => ?_⟩
  rcases List.mem_append.1 hleaf with hleaf | hleaf
  · obtain ⟨way, hway, hon⟩ := hfirst.exists_mem leaf hleaf
    exact ⟨way, List.mem_append_left _ hway, hon⟩
  · obtain ⟨way, hway, hon⟩ := hsecond leaf hleaf
    exact ⟨way, List.mem_append_right _ hway, hon⟩

theorem Threaded.orSkip (h : shape.Threaded) (optional : Bool) :
    (shape.orSkip optional).Threaded := by
  cases optional with
  | false => exact h
  | true => exact h.choice Threaded.skip.exists_mem

end Shape

open Node Wiring

namespace Node

variable {skips : Bool}

mutual

/-- A sound node has a way through each of its leaves. -/
theorem threaded_shape : {node : Node} → node.Sound → (node.shape skips).Threaded
  | .literal .., _ => .one _
  | .parameter _ _ _, _ => (Shape.Threaded.one _).orSkip _
  | .group _ _ _, h => (threaded_shapeOfAll h.1 h.2).orSkip _

theorem threaded_shapeOfSequence : {nodes : List Node} → SoundSequence nodes →
    (shapeOfSequence skips nodes).Threaded
  | [], _ => .skip
  | _ :: _, h => (threaded_shape h.1).join (threaded_shapeOfSequence h.2)

theorem threaded_shapeOfAll : {alternatives : List (List Node)} → alternatives ≠ [] →
    SoundAll alternatives → (shapeOfAll skips alternatives).Threaded
  | [], hne, _ => absurd rfl hne
  -- No way leads through the shape of no alternatives, so the last alternative is a case of its
  -- own.
  | [_], _, h => (threaded_shapeOfSequence h.1.2).choice nofun
  | _ :: second :: rest, _, h =>
    (threaded_shapeOfSequence h.1.2).choice
      (threaded_shapeOfAll (List.cons_ne_nil second rest) h.2).exists_mem

end

end Node

/-! ## Edges lead forward -/

/-- An edge leads from the one place to the other. -/
def Linked {τ : Type} (graph : Graph τ) (source target : Nat) : Prop :=
  ∃ state, graph[source]? = some state ∧ target ∈ state.next

theorem exists_of_linked_toGraph {wiring : Wiring} {source target : Nat}
    (h : Linked wiring.toGraph source target) : ∃ edge ∈ wiring.edges,
      edge.1 ∈ wiring ∧ wiring.place edge.1 = source ∧ wiring.place edge.2 = target := by
  obtain ⟨state, hstate, htarget⟩ := h
  obtain ⟨id, own, hown, hplace, rfl⟩ := exists_of_getElem?_toGraph hstate
  obtain ⟨other, hother, rfl⟩ := Array.mem_map.1 htarget
  exact ⟨(id, other), (mem_edges_iff_of_getElem? hown).2 hother,
    mem_iff_exists_getElem?.2 ⟨own, hown⟩, hplace, rfl⟩

/-! ## The graph of a pattern -/

section Pattern

variable {nodes : List Node} {wiring : Wiring}
  (hwiring : (statesOf nodes).Rewired wiring
    ((shapeOfSequence true nodes).around {0} {endId nodes}))

include hwiring

/-- Where ids grow along the ways, all edges lead forward. -/
theorem IsTree.lt_of_linked (h : IsTree nodes)
    (hflows : (shapeOfSequence true nodes).Flows fun id => id) {source target : Nat}
    (hlinked : Linked wiring.toGraph source target) :
    source < target ∧ target < wiring.toGraph.size := by
  have hadvances : Advances (fun id => id) {0} (shapeOfSequence true nodes) {endId nodes} := by
    have hid {id : Nat} (hid : id ∈ (shapeOfSequence true nodes).ids) :
        0 < id ∧ id < endId nodes := by
      obtain ⟨leaf, hleaf, rfl⟩ := hid
      rw [leaves_shapeOfSequence] at hleaf
      exact h.id_of_leaf hleaf
    refine ⟨hflows, ?_, ?_⟩
    · rintro _ rfl other (hother | rfl)
      · exact (hid hother).1
      · exact Nat.succ_pos _
    · rintro id hmem _ rfl
      exact (hid hmem).2
  obtain ⟨⟨id, other⟩, hedge, hmem, rfl, rfl⟩ := exists_of_linked_toGraph hlinked
  have hother := h.closed hwiring _ hedge
  rw [hwiring.edges_eq] at hedge
  exact ⟨place_lt_place hmem hother (hadvances.lt_of_mem_around hedge), place_lt_size hother⟩

/-- Every state is on a traversal, since every leaf is on a way. -/
theorem IsTree.exists_traversal_through (h : IsTree nodes) {place : Nat}
    (hplace : place < wiring.toGraph.size) :
    ∃ edges states, Traversal wiring.toGraph 0 edges states ∧ place ∈ 0 :: states := by
  obtain ⟨id, hid, rfl⟩ := exists_place_eq hplace
  have hthreaded : (shapeOfSequence true nodes).Threaded := threaded_shapeOfSequence h.sound
  have hzero := zero_mem hwiring
  have htraversal {way : List Leaf} (hway : way ∈ (shapeOfSequence true nodes).ways)
      (hon : id ∈ 0 :: (way.map Leaf.id ++ [endId nodes])) :
      ∃ edges states, Traversal wiring.toGraph 0 edges states ∧
        wiring.place id ∈ 0 :: states := by
    have hrun := (h.run_start_iff hwiring).2 ⟨way, hway, rfl⟩
    obtain ⟨edges, hedges⟩ := (exists_traversal_iff (h.closed hwiring)
      (h.isAccept_kind?_iff hwiring) hzero _).2 ⟨_, hrun, rfl⟩
    rw [place_zero hzero] at hedges
    refine ⟨edges, _, hedges, ?_⟩
    rcases List.mem_cons.1 hon with rfl | hmem
    · rw [place_zero hzero]
      exact List.mem_cons_self
    · exact List.mem_cons_of_mem _ (List.mem_map_of_mem hmem)
  obtain ⟨any, hany⟩ := hthreaded.exists_way
  rcases IsTree.eq_leaf_of_mem (hwiring.mem_iff.1 hid) with rfl | rfl | ⟨leaf, hleaf, rfl⟩
  · exact htraversal hany (by simp)
  · exact htraversal hany List.mem_cons_self
  · rw [← leaves_shapeOfSequence true] at hleaf
    obtain ⟨way, hway, hon⟩ := hthreaded.exists_mem leaf hleaf
    refine htraversal hway (List.mem_cons_of_mem _ (List.mem_append_left _ ?_))
    exact List.mem_map_of_mem hon

end Pattern

/-- The graph of a pattern has a state for each literal and parameter besides the start state and
the end state. Every edge leads forward, so there is no cycle, and every state is on a traversal. -/
theorem graph_of_parse {pattern : Text} {nodes : List Node} (h : parse pattern = .ok nodes) :
    ∃ graph, compile nodes = .ok graph ∧ graph.size = (leavesOf nodes).length + 2 ∧
      (∀ source target, Linked graph source target → source < target ∧ target < graph.size) ∧
      (∀ place, ¬ Relation.TransGen (Linked graph) place place) ∧
      ∀ place < graph.size, ∃ edges states,
        Traversal graph 0 edges states ∧ place ∈ 0 :: states := by
  have htree := isTree_of_parse h
  obtain ⟨wiring, hcompile, hwiring, -, -⟩ := htree.exists_wiring_in_order
  have hforward (source target : Nat) (hlinked : Linked wiring.toGraph source target) :=
    htree.lt_of_linked hwiring (flows_of_parse h) hlinked
  have hlt {first last : Nat} (hchain : Relation.TransGen (Linked wiring.toGraph) first last) :
      first < last := by
    induction hchain with
    | single hlinked => exact (hforward _ _ hlinked).1
    | tail _ hlinked ih => exact Nat.lt_trans ih (hforward _ _ hlinked).1
  refine ⟨wiring.toGraph, hcompile, ?_, hforward, fun place hcycle => (hlt hcycle).ne rfl,
    fun _ hplace => htree.exists_traversal_through hwiring hplace⟩
  rw [htree.size_toGraph hwiring, leaves_shapeOfSequence]
  rfl

/-- In `(|a)?b` the empty literal stands before the `a` and has a greater id. -/
theorem graph_of_lateLiteral : ∃ nodes graph, parse ['(', '|', 'a', ')', '?', 'b'] = .ok nodes ∧
    nodes = [.group 1 [[.literal 4 []], [.literal 3 ['a']]] true, .literal 5 ['b']] ∧
    compile nodes = .ok graph ∧ graph.size = 5 ∧
    (∀ source target, Linked graph source target → source < target ∧ target < graph.size) ∧
    ∀ place < graph.size, ∃ edges states,
      Traversal graph 0 edges states ∧ place ∈ 0 :: states := by
  have hparse : parse ['(', '|', 'a', ')', '?', 'b'] =
      .ok [.group 1 [[.literal 4 []], [.literal 3 ['a']]] true, .literal 5 ['b']] := by
    decide +kernel
  obtain ⟨graph, hcompile, hsize, hforward, -, hthrough⟩ := graph_of_parse hparse
  exact ⟨_, graph, hparse, rfl, hcompile, hsize, hforward, hthrough⟩

end RoutePattern
