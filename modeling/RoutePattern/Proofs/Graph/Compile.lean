import RoutePattern.Proofs.Distinct
import RoutePattern.Proofs.Graph.Bypass
import RoutePattern.Proofs.Graph.Junction
import RoutePattern.Proofs.Graph.Places

/-!
# The graph of a tree

A tree can always be compiled, into a graph with the edges around the shape of the tree
(`exists_wirings`). The walks of the graph from its start state to its end state meet the
leaves that the ways through the tree meet (`exists_graph`).
-/

namespace RoutePattern

namespace Wiring

open Node

/-! ## States without edges -/

theorem kind?_addState (wiring : Wiring) (id : Nat) (kind : Kind Unit) (other : Nat) :
    (wiring.addState id kind).kind? other =
      if id = other then some kind else wiring.kind? other := by
  by_cases h : id = other <;> simp [kind?, addState, Std.TreeMap.getElem?_insert, h]

theorem edges_addState {wiring : Wiring} (h : wiring.edges = ∅) (id : Nat) (kind : Kind Unit) :
    (wiring.addState id kind).edges = ∅ := by
  ext ⟨source, target⟩
  have hnone : (source, target) ∉ wiring.edges := by simp [h]
  by_cases hsource : id = source
  · simp [mem_edges_iff, next, addState, hsource]
  · simpa [mem_edges_iff, next, addState, Std.TreeMap.getElem?_insert, hsource] using hnone

/-- A state for every leaf. -/
def addLeaves (wiring : Wiring) (leaves : List Leaf) : Wiring :=
  leaves.foldl (fun wiring leaf => wiring.addState leaf.id leaf.kind) wiring

theorem foldl_addNode (wiring : Wiring) (nodes : List Node) :
    nodes.foldl addNode wiring = wiring.addLeaves (nodes.filterMap leaf?) := by
  induction nodes generalizing wiring with
  | nil => rfl
  | cons node nodes ih => cases node <;> exact ih _

theorem edges_addLeaves {wiring : Wiring} (h : wiring.edges = ∅) (leaves : List Leaf) :
    (wiring.addLeaves leaves).edges = ∅ := by
  induction leaves generalizing wiring with
  | nil => exact h
  | cons leaf leaves ih => exact ih (edges_addState h leaf.id leaf.kind)

/-- Of the leaves with the same id the last one has the state. -/
theorem kind?_addLeaves_eq (wiring : Wiring) (leaves : List Leaf) (id : Nat) :
    (wiring.addLeaves leaves).kind? id =
      ((lastWith? Leaf.id leaves id).map Leaf.kind).or (wiring.kind? id) := by
  induction leaves generalizing wiring with
  | nil => rfl
  | cons leaf leaves ih =>
    refine (ih (wiring.addState leaf.id leaf.kind)).trans ?_
    rw [lastWith?_cons, kind?_addState]
    by_cases hid : leaf.id = id <;> cases lastWith? Leaf.id leaves id <;> simp [hid]

theorem kind?_addLeaves_of_notMem {wiring : Wiring} {leaves : List Leaf} {id : Nat}
    (h : id ∉ leaves.map Leaf.id) : (wiring.addLeaves leaves).kind? id = wiring.kind? id := by
  rw [kind?_addLeaves_eq, lastWith?_eq_none_iff.2 h]
  rfl

theorem kind?_addLeaves {wiring : Wiring} {leaves : List Leaf}
    (hnodup : (leaves.map Leaf.id).Nodup) {leaf : Leaf} (h : leaf ∈ leaves) :
    (wiring.addLeaves leaves).kind? leaf.id = some leaf.kind := by
  rw [kind?_addLeaves_eq, lastWith?_of_nodup hnodup h]
  rfl

end Wiring

/-! ## Walks and runs -/

/-- Where a wiring has one end state, and no edge leaves it, a walk is a run to the end state with
the kinds of its states. -/
theorem Wiring.walk_look_iff {wiring : Wiring} {last : Nat}
    (haccept : ∀ id kind, wiring.kind? id = some kind → (kind.isAccept = true ↔ id = last))
    (hstop : ∀ target, (last, target) ∉ wiring.edges) {id : Nat} {path : Path Unit} :
    Walk wiring.look id path ↔
      ∃ ids, Run wiring.edges last id ids ∧ (id :: ids).map wiring.kind? = path.map some := by
  constructor
  · intro h
    induction h with
    | @accept id state hstate hkind =>
      have hown := kind?_of_getElem? hstate
      obtain rfl := (haccept id _ hown).1 hkind
      exact ⟨[], .stop, by simp [hown]⟩
    | @step id target state path hstate hkind hedge _ ih =>
      have hown := kind?_of_getElem? hstate
      have hmem := (mem_edges_iff_of_getElem? hstate).2 hedge
      obtain ⟨ids, hrun, hkinds⟩ := ih
      exact ⟨target :: ids, .step hmem hrun, by rw [List.map_cons, hown, hkinds, List.map_cons]⟩
  · rintro ⟨ids, hrun, hkinds⟩
    induction hrun generalizing path with
    | stop =>
      cases path with
      | nil => simp at hkinds
      | cons kind path =>
        obtain ⟨hown, hpath⟩ := List.cons_eq_cons.1 hkinds
        obtain rfl : path = [] := by simpa using hpath.symm
        obtain ⟨state, hstate, rfl⟩ := Option.map_eq_some_iff.1 hown
        exact .accept hstate ((haccept last _ hown).2 rfl)
    | @step id target ids hedge _ ih =>
      cases path with
      | nil => simp at hkinds
      | cons kind path =>
        obtain ⟨hown, hpath⟩ := List.cons_eq_cons.1 hkinds
        obtain ⟨state, hstate, rfl⟩ := Option.map_eq_some_iff.1 hown
        have hne : id ≠ last := by
          rintro rfl
          exact hstop target hedge
        have hkind : state.kind.isAccept = false := by
          rw [Bool.eq_false_iff, ne_eq, haccept id _ hown]
          exact hne
        exact .step hstate hkind ((mem_edges_iff_of_getElem? hstate).1 hedge) (ih hpath)

/-! ## The wiring of a tree -/

section Tree

open Node Wiring

variable {nodes : List Node}

theorem le_greatestId {node : Node} (h : node ∈ nodes) : node.id ≤ greatestId nodes := by
  have hid : node.id ∈ nodes.map Node.id := List.mem_map_of_mem h
  rw [greatestId, ← List.foldl_map, List.foldl_max]
  exact Nat.le_trans (List.le_max?_getD_of_mem hid) (Nat.le_max_right _ _)

/-- The id of the end state of a tree. -/
def endId (nodes : List Node) : Nat := greatestId (membersOfSequence nodes) + 1

/-- The states of a tree before there are edges. -/
def statesOf (nodes : List Node) : Wiring :=
  (((membersOfSequence nodes).foldl addNode ∅).addState 0 .start).addState (endId nodes)
    (.accept ())

theorem kind?_statesOf_eq (nodes : List Node) (id : Nat) : (statesOf nodes).kind? id =
    if endId nodes = id then some (.accept ()) else if 0 = id then some .start else
      (addLeaves ∅ ((membersOfSequence nodes).filterMap leaf?)).kind? id := by
  rw [statesOf, kind?_addState, kind?_addState, foldl_addNode]

theorem edges_statesOf (nodes : List Node) : (statesOf nodes).edges = ∅ := by
  rw [statesOf, foldl_addNode]
  have hempty : (∅ : Wiring).edges = ∅ := by
    ext
    simp [edges, next]
  exact edges_addState (edges_addState (edges_addLeaves hempty _) _ _) _ _

/-- A tree is compiled if its edges and then its bypasses can be added, and the end state keeps none
of them. -/
theorem compile_eq_ok {straight wiring : Wiring} (hne : nodes ≠ [])
    (hinventory : inventoryOfSequence nodes = .ok (membersOfSequence nodes))
    (hstraight : (statesOf nodes).connectAll?
      (outerLinks (Junctions.ofNodes (membersOfSequence nodes)) (endId nodes) nodes) = .ok straight)
    (hwiring : bypassSequence? (Junctions.ofNodes (membersOfSequence nodes)) straight nodes =
      .ok wiring)
    (hend : wiring.next (endId nodes) = []) : compile nodes = .ok wiring.toGraph := by
  have hnonempty : nodes.isEmpty = false := by simpa using hne
  unfold statesOf endId at hstraight
  unfold endId at hend
  simp [compile, bind, Except.bind, pure, Except.pure, hnonempty, hinventory, hstraight, hwiring,
    hend]

namespace IsTree

/-- The ids of the nodes lie between those of the start state and the end state. -/
theorem id_of_member (h : IsTree nodes) {node : Node} (hnode : node ∈ membersOfSequence nodes) :
    0 < node.id ∧ node.id < endId nodes :=
  ⟨h.pos node hnode, Nat.lt_succ_of_le (le_greatestId hnode)⟩

theorem id_of_leaf (h : IsTree nodes) {leaf : Leaf}
    (hleaf : leaf ∈ (membersOfSequence nodes).filterMap leaf?) :
    0 < leaf.id ∧ leaf.id < endId nodes := by
  obtain ⟨node, hnode, hsome⟩ := List.mem_filterMap.1 hleaf
  rw [id_eq_of_leaf? hsome]
  exact h.id_of_member hnode

theorem kind?_leaf (h : IsTree nodes) {leaf : Leaf}
    (hleaf : leaf ∈ (membersOfSequence nodes).filterMap leaf?) :
    (statesOf nodes).kind? leaf.id = some leaf.kind := by
  obtain ⟨hpos, hlt⟩ := h.id_of_leaf hleaf
  rw [kind?_statesOf_eq, if_neg (by omega), if_neg (by omega)]
  exact kind?_addLeaves ((filterMap_leaf?_sublist _).nodup h.nodup) hleaf

/-- A state that is neither the start state nor the end state is that of a leaf. -/
theorem eq_leaf_of_mem {id : Nat} (hid : id ∈ statesOf nodes) :
    id = endId nodes ∨ id = 0 ∨
      ∃ leaf ∈ (membersOfSequence nodes).filterMap leaf?, leaf.id = id := by
  by_contra! hne
  obtain ⟨hend, hstart, hleaf⟩ := hne
  have hnotMem : id ∉ ((membersOfSequence nodes).filterMap leaf?).map Leaf.id := by
    rw [List.mem_map]
    rintro ⟨leaf, hmem, rfl⟩
    exact hleaf leaf hmem rfl
  rw [mem_iff_exists_kind?, kind?_statesOf_eq, if_neg (Ne.symm hend), if_neg (Ne.symm hstart),
    kind?_addLeaves_of_notMem hnotMem] at hid
  simp [kind?] at hid

theorem notMem_ids (h : IsTree nodes) (skips : Bool) {id : Nat} (hid : id = 0 ∨ id = endId nodes) :
    id ∉ (shapeOfSequence skips nodes).ids := by
  rintro ⟨leaf, hleaf, rfl⟩
  rw [leaves_shapeOfSequence] at hleaf
  have := h.id_of_leaf hleaf
  omega

/-- The tree stands between the start state and the end state. -/
theorem sits (h : IsTree nodes) (skips : Bool) :
    Sits ((shapeOfSequence skips nodes).around {0} {endId nodes}) ∅ {0}
      (shapeOfSequence skips nodes) {endId nodes} := by
  refine ⟨(Set.empty_union _).symm, Set.empty_subset _, ?_, ?_, ?_⟩
  · exact Set.singleton_subset_iff.2 (h.notMem_ids skips (.inl rfl))
  · exact Set.singleton_subset_iff.2 (h.notMem_ids skips (.inr rfl))
  · rw [Shape.Distinct, leaves_shapeOfSequence]
    exact (filterMap_leaf?_sublist _).nodup h.nodup

/-- No edge leaves the end state. -/
theorem notMem_edges_end (h : IsTree nodes) (target : Nat) :
    (endId nodes, target) ∉ (shapeOfSequence true nodes).around {0} {endId nodes} := by
  intro hedge
  rcases (Shape.around_subset hedge).1 with hid | hid
  · exact h.notMem_ids true (.inr rfl) hid
  · simp [endId] at hid

theorem routed (h : IsTree nodes) (skips : Bool) :
    Routed (Junctions.ofNodes (membersOfSequence nodes)) (statesOf nodes)
      ((shapeOfSequence skips nodes).span {0} {endId nodes}) := by
  have hother {id : Nat} (hid : id = 0 ∨ id = endId nodes) :
      id ∈ statesOf nodes ∧
        (Junctions.ofNodes (membersOfSequence nodes)).find id = .state id := by
    refine ⟨?_, ?_⟩
    · rw [mem_iff_exists_kind?, kind?_statesOf_eq]
      rcases hid with rfl | rfl <;> simp [endId]
    · apply Junctions.find_of_notMem
      intro hmem
      obtain ⟨node, hnode, rfl⟩ := List.mem_map.1 hmem
      have hbetween := h.id_of_member hnode
      omega
  rintro id ((⟨leaf, hleaf, rfl⟩ | hid) | hid)
  · rw [leaves_shapeOfSequence] at hleaf
    obtain ⟨node, hnode, hsome⟩ := List.mem_filterMap.1 hleaf
    exact ⟨mem_iff_exists_kind?.2 ⟨leaf.kind, h.kind?_leaf hleaf⟩,
      Junctions.find_of_leaf? h.nodup hnode hsome⟩
  · exact hother (.inl hid)
  · exact hother (.inr hid)

/-- Before the bypasses a tree has the edges around it when nothing in it can be left out. -/
theorem exists_connectAll?_eq_ok (h : IsTree nodes) :
    ∃ straight, (statesOf nodes).connectAll?
        (outerLinks (Junctions.ofNodes (membersOfSequence nodes)) (endId nodes) nodes) =
        .ok straight ∧
      (statesOf nodes).Rewired straight
        ((shapeOfSequence false nodes).around {0} {endId nodes}) := by
  have hstates := h.routed false
  have hnodes := @Junctions.find_ofNodes_sequence [] nodes (by simpa using h.nodup)
  have hlink (link : Nat × Nat) : link ∈ outerLinks (Junctions.ofNodes (membersOfSequence nodes))
      (endId nodes) nodes ↔ link ∈ (shapeOfSequence false nodes).around {0} {endId nodes} :=
    Junction.mem_outerLinks_iff h.sound h.nonempty (hstates 0 (Shape.subset_span (.inl rfl))).2
      (hstates _ (Shape.subset_span (.inr rfl))).2 (by simpa using hnodes)
  have hmem : ∀ link ∈ outerLinks (Junctions.ofNodes (membersOfSequence nodes)) (endId nodes) nodes,
      link.1 ∈ statesOf nodes ∧ link.2 ∈ statesOf nodes := by
    intro link hmem
    obtain ⟨hsource, htarget⟩ := Shape.around_subset ((hlink link).1 hmem)
    exact ⟨(hstates _ (Or.inl hsource)).1, (hstates _ (htarget.imp_left Or.inl)).1⟩
  obtain ⟨straight, hstraight, hkind, hedges⟩ := connectAll?_of_mem hmem
  refine ⟨straight, hstraight, hkind, ?_⟩
  rw [hedges, edges_statesOf, Set.empty_union]
  exact Set.ext hlink

/-- A tree can be compiled: a wiring with the edges around the tree when nothing in it can be left
out gets the bypasses, and then has the edges around the shape of the tree. -/
theorem exists_wirings (h : IsTree nodes) : ∃ straight wiring : Wiring,
    (statesOf nodes).connectAll?
        (outerLinks (Junctions.ofNodes (membersOfSequence nodes)) (endId nodes) nodes) =
        .ok straight ∧
      (statesOf nodes).Rewired straight ((shapeOfSequence false nodes).around {0} {endId nodes}) ∧
      bypassSequence? (Junctions.ofNodes (membersOfSequence nodes)) straight nodes =
        .ok wiring ∧
      (statesOf nodes).Rewired wiring ((shapeOfSequence true nodes).around {0} {endId nodes}) ∧
      compile nodes = .ok wiring.toGraph := by
  obtain ⟨straight, hstraight, hskeleton⟩ := h.exists_connectAll?_eq_ok
  obtain ⟨wiring, hwiring, hbypassed⟩ := bypassSequence?_of_sits h.sound
    (hskeleton.edges_eq ▸ h.sits false) (hskeleton.routed (h.routed false))
  rw [Set.empty_union] at hbypassed
  refine ⟨straight, wiring, hstraight, hskeleton, hwiring, hskeleton.trans hbypassed, ?_⟩
  have hend : wiring.next (endId nodes) = [] := by
    apply List.eq_nil_iff_forall_not_mem.2
    intro target htarget
    rw [← mem_edges_iff, hbypassed.edges_eq] at htarget
    exact h.notMem_edges_end target htarget
  exact compile_eq_ok h.nonempty (inventoryOfSequence_eq_ok h.sound) hstraight hwiring hend

theorem isAccept_iff (h : IsTree nodes) {id : Nat} {kind : Kind Unit}
    (hkind : (statesOf nodes).kind? id = some kind) : kind.isAccept = true ↔ id = endId nodes := by
  have hid : id ∈ statesOf nodes := mem_iff_exists_kind?.2 ⟨kind, hkind⟩
  rcases eq_leaf_of_mem hid with rfl | rfl | ⟨leaf, hleaf, rfl⟩
  · rw [kind?_statesOf_eq, if_pos rfl] at hkind
    simp [← Option.some.inj hkind, Kind.isAccept]
  · rw [kind?_statesOf_eq, if_neg (by simp [endId]), if_pos rfl] at hkind
    simp [← Option.some.inj hkind, Kind.isAccept, endId]
  · rw [h.kind?_leaf hleaf, Option.some.injEq] at hkind
    have hlt := (h.id_of_leaf hleaf).2
    refine iff_of_false ?_ (by omega)
    obtain ⟨node, -, hsome⟩ := List.mem_filterMap.1 hleaf
    rw [← hkind, isAccept_of_leaf? hsome]
    simp

section Wired

variable {wiring : Wiring}
  (hwiring : (statesOf nodes).Rewired wiring
    ((shapeOfSequence true nodes).around {0} {endId nodes}))

include hwiring

theorem kind?_start :
    wiring.kind? 0 = some .start := by
  rw [hwiring.kind?_eq, kind?_statesOf_eq, if_neg (by simp [endId]), if_pos rfl]

theorem kind?_end :
    wiring.kind? (endId nodes) = some (.accept ()) := by
  rw [hwiring.kind?_eq, kind?_statesOf_eq, if_pos rfl]

/-- The end state comes last. -/
theorem isAccept_back? (h : IsTree nodes) :
    (wiring.toGraph.back?.any fun state => state.kind.isAccept) = true := by
  obtain ⟨state, hstate, haccept⟩ := Option.map_eq_some_iff.1 (kind?_end hwiring)
  have hlast : ∀ other ∈ wiring, other ≤ endId nodes := by
    intro other hother
    rcases eq_leaf_of_mem (hwiring.mem_iff.1 hother) with rfl | rfl | ⟨leaf, hleaf, rfl⟩
    · exact Nat.le_refl _
    · exact Nat.zero_le _
    · exact Nat.le_of_lt (h.id_of_leaf hleaf).2
  rw [back?_toGraph hstate hlast]
  simp [placed, haccept, Kind.isAccept]

/-- The kinds met on the way from the start state to the end state. -/
theorem map_kind?_ids (h : IsTree nodes)
    {way : List Leaf} (hway : way ∈ (shapeOfSequence true nodes).ways) :
    (0 :: (way.map Leaf.id ++ [endId nodes])).map wiring.kind? =
      (.start :: (way.map Leaf.kind ++ [.accept ()])).map some := by
  have hleaves : (way.map Leaf.id).map wiring.kind? = (way.map Leaf.kind).map some := by
    rw [List.map_map, List.map_map]
    apply List.map_congr_left
    intro leaf hleaf
    have hmem := Shape.mem_leaves_of_mem_ways hway hleaf
    rw [leaves_shapeOfSequence] at hmem
    exact (hwiring.kind?_eq leaf.id).trans (h.kind?_leaf hmem)
  simp only [List.map_cons, List.map_append, hleaves, kind?_start hwiring, kind?_end hwiring,
    List.map_nil]

theorem zero_mem : 0 ∈ wiring := mem_iff_exists_kind?.2 ⟨.start, kind?_start hwiring⟩

/-- Every edge leads to a state. -/
theorem closed (h : IsTree nodes) : ∀ edge ∈ wiring.edges, edge.2 ∈ wiring := by
  intro edge hedge
  have hstates := (Shape.around_subset (hwiring.edges_eq ▸ hedge)).2
  exact hwiring.mem_iff.2 (h.routed true _ (hstates.imp_left Or.inl)).1

theorem stops (h : IsTree nodes) (target : Nat) : (endId nodes, target) ∉ wiring.edges := by
  rw [hwiring.edges_eq]
  exact h.notMem_edges_end target

/-- The end state is the only one that a walk ends in. -/
theorem isAccept_kind?_iff (h : IsTree nodes) (id : Nat) (kind : Kind Unit)
    (hkind : wiring.kind? id = some kind) : kind.isAccept = true ↔ id = endId nodes :=
  h.isAccept_iff (hwiring.kind?_eq id ▸ hkind)

/-- A run from the start state follows a way through the tree. -/
theorem run_start_iff (h : IsTree nodes) {ids : List Nat} :
    Run wiring.edges (endId nodes) 0 ids ↔
      ∃ way ∈ (shapeOfSequence true nodes).ways, ids = way.map Leaf.id ++ [endId nodes] := by
  rw [hwiring.edges_eq]
  exact (h.sits true).run_iff (by simp [endId])

theorem walk_toGraph_start_iff (h : IsTree nodes)
    {path : Path Unit} : Walk wiring.toGraph.look 0 (.start :: path) ↔
      ∃ way ∈ (shapeOfSequence true nodes).ways, path = way.map Leaf.kind ++ [.accept ()] := by
  have hzero := zero_mem hwiring
  rw [← place_zero hzero, walk_toGraph_iff (closed hwiring h) hzero,
    walk_look_iff (isAccept_kind?_iff hwiring h) (stops hwiring h)]
  simp only [run_start_iff hwiring h]
  constructor
  · rintro ⟨_, ⟨way, hway, rfl⟩, hpath⟩
    rw [map_kind?_ids hwiring h hway] at hpath
    have heq := List.map_injective_iff.2 (Option.some_injective _) hpath
    exact ⟨way, hway, (List.cons_eq_cons.1 heq).2.symm⟩
  · rintro ⟨way, hway, rfl⟩
    exact ⟨_, ⟨way, hway, rfl⟩, map_kind?_ids hwiring h hway⟩

end Wired

/-- A tree has a graph, whose walks from the start state to the end state meet the leaves that the
ways through the tree meet. -/
theorem exists_graph (h : IsTree nodes) : ∃ graph, compile nodes = .ok graph ∧
    (graph.back?.any fun state => state.kind.isAccept) = true ∧
    ∀ path, Walk graph.look 0 (.start :: path) ↔
      ∃ way ∈ (shapeOfSequence true nodes).ways, path = way.map Leaf.kind ++ [.accept ()] := by
  obtain ⟨_, wiring, -, -, -, hwiring, hcompile⟩ := h.exists_wirings
  exact ⟨wiring.toGraph, hcompile, isAccept_back? hwiring h,
    fun _ => walk_toGraph_start_iff hwiring h⟩

end IsTree

end Tree

end RoutePattern
