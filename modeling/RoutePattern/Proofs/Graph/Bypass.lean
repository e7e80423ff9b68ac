import RoutePattern.Graph.Compile
import RoutePattern.Proofs.Graph.Flow
import RoutePattern.Proofs.Graph.Wiring

/-!
# Bypasses

Before its optional nodes are bypassed, a graph holds the edges around a tree that is read as if
nothing in it was optional. The states with an edge into a node are then those before it, and the
states it has edges to those behind it (`mem_intoNode_iff`, `mem_outOfNode_iff`). So a bypass adds
the edges from all states before the node to all states behind it, and when the bypasses of the
whole tree are there, the graph holds the edges around the tree as it is
(`bypassSequence?_of_sits`).
-/

namespace RoutePattern

namespace Wiring

open Node

variable {wiring : Wiring} {others : Set (Nat × Nat)} {before after : Set Nat} {state : Nat}

/-- The edges into a leaf come from the states before it. -/
theorem mem_sources_one_iff {leaf : Leaf}
    (h : Sits wiring.edges others before (.one leaf) after) :
    state ∈ wiring.sources leaf.id ↔ state ∈ before := by
  rw [mem_sources_iff]
  exact Set.ext_iff.1 h.sources_of_one state

/-- The edges out of a leaf lead to the states behind it. -/
theorem mem_next_one_iff {leaf : Leaf} (h : Sits wiring.edges others before (.one leaf) after) :
    state ∈ wiring.next leaf.id ↔ state ∈ after :=
  Set.ext_iff.1 h.targets_of_one state

mutual

/-- The states with an edge into a node, which the first leaves of the node tell, are those before
it. -/
theorem mem_intoNode_iff {others : Set (Nat × Nat)} {before after : Set Nat} : {node : Node} →
    node.Sound → Sits wiring.edges others before (node.shape false) after →
    (state ∈ wiring.intoNode node ↔ state ∈ before)
  | .literal .., _, h => mem_sources_one_iff h
  | .parameter .., _, h => mem_sources_one_iff h
  | .group _ alternatives _, hsound, h => by
    rw [intoNode, mem_intoFirsts_iff hsound.2 h]
    exact and_iff_right hsound.1

theorem mem_intoFirsts_iff {others : Set (Nat × Nat)} {before after : Set Nat} :
    {alternatives : List (List Node)} → SoundAll alternatives →
    Sits wiring.edges others before (shapeOfAll false alternatives) after →
    (state ∈ wiring.intoFirsts alternatives ↔ alternatives ≠ [] ∧ state ∈ before)
  | [], _, _ => by simp [intoFirsts]
  | alternative :: rest, hsound, h => by
    rw [intoFirsts, List.mem_append, mem_intoFirst_iff hsound.1.2 h.choiceFirst,
      mem_intoFirsts_iff hsound.2 h.choiceSecond]
    simp only [ne_eq, hsound.1.1, not_false_eq_true, true_and, reduceCtorEq]
    exact or_iff_left_of_imp And.right

theorem mem_intoFirst_iff {others : Set (Nat × Nat)} {before after : Set Nat} :
    {nodes : List Node} → SoundSequence nodes →
    Sits wiring.edges others before (shapeOfSequence false nodes) after →
    (state ∈ wiring.intoFirst nodes ↔ nodes ≠ [] ∧ state ∈ before)
  | [], _, _ => by simp [intoFirst]
  | first :: rest, hsound, h => by
    rw [intoFirst, mem_intoNode_iff hsound.1 h.joinFirst]
    simp

end

mutual

/-- The states with an edge from a node, as its last leaves tell, are those behind it. -/
theorem mem_outOfNode_iff {others : Set (Nat × Nat)} {before after : Set Nat} : {node : Node} →
    node.Sound → Sits wiring.edges others before (node.shape false) after →
    (state ∈ wiring.outOfNode node ↔ state ∈ after)
  | .literal .., _, h => mem_next_one_iff h
  | .parameter .., _, h => mem_next_one_iff h
  | .group _ alternatives _, hsound, h => by
    rw [outOfNode, mem_outOfLasts_iff hsound.2 h]
    exact and_iff_right hsound.1

theorem mem_outOfLasts_iff {others : Set (Nat × Nat)} {before after : Set Nat} :
    {alternatives : List (List Node)} → SoundAll alternatives →
    Sits wiring.edges others before (shapeOfAll false alternatives) after →
    (state ∈ wiring.outOfLasts alternatives ↔ alternatives ≠ [] ∧ state ∈ after)
  | [], _, _ => by simp [outOfLasts]
  | alternative :: rest, hsound, h => by
    rw [outOfLasts, List.mem_append, mem_outOfLast_iff hsound.1.2 h.choiceFirst,
      mem_outOfLasts_iff hsound.2 h.choiceSecond]
    simp only [ne_eq, hsound.1.1, not_false_eq_true, true_and, reduceCtorEq]
    exact or_iff_left_of_imp And.right

theorem mem_outOfLast_iff {others : Set (Nat × Nat)} {before after : Set Nat} :
    {nodes : List Node} → SoundSequence nodes →
    Sits wiring.edges others before (shapeOfSequence false nodes) after →
    (state ∈ wiring.outOfLast nodes ↔ nodes ≠ [] ∧ state ∈ after)
  | [], _, _ => by simp [outOfLast]
  | [last], hsound, h => by
    rw [outOfLast, mem_outOfNode_iff hsound.1 h.joinFirst]
    simp [Shape.enter, shapeOfSequence]
  -- The end of a sequence is the end of its last node.
  | _ :: second :: rest, hsound, h => by
    rw [outOfLast, mem_outOfLast_iff hsound.2 h.joinSecond]
    · simp
    · nofun

end

/-! ## One bypass -/

/-- The ids are those of states that are there, and edges to and from them are not led on. -/
def Routed (junctions : Junctions) (wiring : Wiring) (states : Set Nat) : Prop :=
  ∀ id ∈ states, id ∈ wiring ∧ junctions.find id = .state id

theorem Routed.mono {junctions : Junctions} {states fewer : Set Nat}
    (h : Routed junctions wiring states) (hfewer : fewer ⊆ states) :
    Routed junctions wiring fewer :=
  fun id hid => h id (hfewer hid)

/-- More edges do not change which states are there. -/
theorem Rewired.routed {wired : Wiring} {edges : Set (Nat × Nat)} {junctions : Junctions}
    {states : Set Nat} (h : wiring.Rewired wired edges) (hstates : Routed junctions wiring states) :
    Routed junctions wired states :=
  fun id hid => ⟨h.mem_iff.2 (hstates id hid).1, (hstates id hid).2⟩

variable {junctions : Junctions}

/-- The bypass of a node leads from all states before it to all states behind it. -/
theorem mem_bypassLinks_iff {node : Node} (hsound : node.Sound)
    (h : Sits wiring.edges others before (node.shape false) after)
    (hstates : Routed junctions wiring (before ∪ after)) {link : Nat × Nat} :
    link ∈ wiring.bypassLinks junctions node ↔ link ∈ before ×ˢ after := by
  have hfind {id : Nat} (hid : id ∈ before ∪ after) : junctions.find id = .state id :=
    (hstates id hid).2
  simp only [bypassLinks, List.mem_flatMap, mem_intoNode_iff hsound h, mem_outOfNode_iff hsound h]
  constructor
  · rintro ⟨source, hsource, target, htarget, hlink⟩
    rw [hfind (.inl hsource), hfind (.inr htarget)] at hlink
    obtain rfl : link = (source, target) := by
      simpa [Junction.links, Junction.entries] using hlink
    exact ⟨hsource, htarget⟩
  · rintro ⟨hsource, htarget⟩
    refine ⟨link.1, hsource, link.2, htarget, ?_⟩
    rw [hfind (.inl hsource), hfind (.inr htarget)]
    simp [Junction.links, Junction.entries]

/-- The bypass of a node can be added. -/
theorem connectAll?_bypassLinks {node : Node} (hsound : node.Sound)
    (h : Sits wiring.edges others before (node.shape false) after)
    (hstates : Routed junctions wiring (before ∪ after)) :
    ∃ wired, wiring.connectAll? (wiring.bypassLinks junctions node) = .ok wired ∧
      wiring.Rewired wired (wiring.edges ∪ before ×ˢ after) := by
  have hset : {link | link ∈ wiring.bypassLinks junctions node} = before ×ˢ after :=
    Set.ext fun _ => mem_bypassLinks_iff hsound h hstates
  have hmem : ∀ link ∈ wiring.bypassLinks junctions node, link.1 ∈ wiring ∧ link.2 ∈ wiring := by
    intro link hlink
    obtain ⟨hsource, htarget⟩ := (mem_bypassLinks_iff hsound h hstates).1 hlink
    exact ⟨(hstates _ (.inl hsource)).1, (hstates _ (.inr htarget)).1⟩
  obtain ⟨wired, hwired, hedges⟩ := connectAll?_of_mem hmem
  exact ⟨wired, hwired, hset ▸ hedges⟩

/-! ## All bypasses -/

mutual

/-- When the optional nodes of a node are bypassed, the graph holds the edges around the node as it
is. -/
theorem bypass?_of_sits {wiring : Wiring} {others : Set (Nat × Nat)} {before after : Set Nat} :
    {node : Node} → node.Sound → Sits wiring.edges others before (node.shape false) after →
    Routed junctions wiring ((node.shape false).span before after) →
    ∃ wired, bypass? junctions wiring node = .ok wired ∧
      wiring.Rewired wired (others ∪ (node.shape true).around before after)
  | .literal .., _, h, _ => ⟨wiring, rfl, fun _ => rfl, h.edges_eq⟩
  | .parameter _ _ false, _, h, _ => ⟨wiring, rfl, fun _ => rfl, h.edges_eq⟩
  | .parameter _ name true, hsound, h, hstates => by
    obtain ⟨wired, hwired, hedges⟩ := connectAll?_bypassLinks hsound h
      (hstates.mono Shape.subset_span)
    refine ⟨wired, hwired, hedges.kind?_eq, ?_⟩
    rw [hedges.edges_eq, h.edges_eq, Set.union_assoc]
    exact congrArg _ Shape.around_orSkip_true.symm
  | .group _ alternatives false, hsound, h, hstates =>
    bypassAlternatives?_of_sits hsound.2 h hstates
  | .group _ alternatives true, hsound, h, hstates => by
    obtain ⟨between, hbetween, hover⟩ := connectAll?_bypassLinks hsound h
      (hstates.mono Shape.subset_span)
    -- The bypass of the group stands beside its alternatives when these are bypassed.
    have hinner : Sits between.edges (others ∪ before ×ˢ after) before
        (shapeOfAll false alternatives) after := hover.edges_eq ▸ h.stepOver
    obtain ⟨wired, hwired, hedges⟩ := bypassAlternatives?_of_sits hsound.2 hinner
      (hover.routed hstates)
    refine ⟨wired, ?_, (hover.trans hedges).kind?_eq, ?_⟩
    · rw [bypass?, hbetween]
      exact hwired
    · rw [hedges.edges_eq, Set.union_assoc, Set.union_comm (before ×ˢ after),
        ← Shape.around_orSkip_true]
      rfl

theorem bypassAlternatives?_of_sits {wiring : Wiring} {others : Set (Nat × Nat)}
    {before after : Set Nat} : {alternatives : List (List Node)} → SoundAll alternatives →
    Sits wiring.edges others before (shapeOfAll false alternatives) after →
    Routed junctions wiring ((shapeOfAll false alternatives).span before after) →
    ∃ wired, bypassAlternatives? junctions wiring alternatives = .ok wired ∧
      wiring.Rewired wired (others ∪ (shapeOfAll true alternatives).around before after)
  | [], _, h, _ => ⟨wiring, rfl, fun _ => rfl, h.edges_eq⟩
  | alternative :: rest, hsound, h, hstates => by
    obtain ⟨between, hbetween, hfirst⟩ := bypassSequence?_of_sits hsound.1.2 h.choiceFirst
      (hstates.mono Shape.span_choiceFirst_subset)
    have hrest := h.replaceChoiceFirst (leaves_shapeOfSequence_eq alternative) hfirst.edges_eq
    obtain ⟨wired, hwired, hedges⟩ := bypassAlternatives?_of_sits hsound.2 hrest.choiceSecond
      (hfirst.routed (hstates.mono Shape.span_choiceSecond_subset))
    refine ⟨wired, ?_, (hfirst.trans hedges).kind?_eq, ?_⟩
    · rw [bypassAlternatives?, hbetween]
      exact hwired
    · rw [hedges.edges_eq, Set.union_assoc, ← Shape.around_choice, shapeOfAll]

theorem bypassSequence?_of_sits {wiring : Wiring} {others : Set (Nat × Nat)}
    {before after : Set Nat} : {nodes : List Node} → SoundSequence nodes →
    Sits wiring.edges others before (shapeOfSequence false nodes) after →
    Routed junctions wiring ((shapeOfSequence false nodes).span before after) →
    ∃ wired, bypassSequence? junctions wiring nodes = .ok wired ∧
      wiring.Rewired wired (others ∪ (shapeOfSequence true nodes).around before after)
  | [], _, h, _ => ⟨wiring, rfl, fun _ => rfl, h.edges_eq⟩
  | node :: rest, hsound, h, hstates => by
    obtain ⟨between, hbetween, hfirst⟩ := bypass?_of_sits hsound.1 h.joinFirst
      (hstates.mono Shape.span_joinFirst_subset)
    -- With its bypasses the first node has other edges, so the place of the others is looked up
    -- anew.
    have hrest := h.replaceJoinFirst (leaves_shape_eq node) hfirst.edges_eq
    have hleaves : (Shape.join (node.shape true) (shapeOfSequence false rest)).leaves =
        (shapeOfSequence false (node :: rest)).leaves := by
      rw [Shape.leaves, leaves_shape_eq, shapeOfSequence, Shape.leaves]
    obtain ⟨wired, hwired, hedges⟩ := bypassSequence?_of_sits hsound.2 hrest.joinSecond
      (hfirst.routed (hstates.mono
        (Shape.span_joinSecond_subset.trans (Shape.span_congr hleaves).subset)))
    refine ⟨wired, ?_, (hfirst.trans hedges).kind?_eq, ?_⟩
    · rw [bypassSequence?, hbetween]
      exact hwired
    · rw [hedges.edges_eq, Set.union_assoc, ← Shape.around_join_second, shapeOfSequence]

end

end Wiring

end RoutePattern
