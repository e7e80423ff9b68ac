import Mathlib.Data.List.Sort
import RoutePattern.Proofs.Graph.Resolution
import RoutePattern.Proofs.Graph.Traversals

/-!
# What becomes of a tree

Any tree can be given to the compiler, whatever ids its nodes carry. It is refused if it is empty,
holds an empty alternative or a separator, and for no other reason (`compile_outcomes`): every edge
that is added goes from a state of the tree to a state of the tree, and none leaves the end state
(`WiredIn`). This holds of the edges through the tree and is kept by each bypass, which only leads
on the edges that are there (`bypassSequence?_of_wiredIn`).
-/

namespace RoutePattern

namespace Node

/-! ## The nodes that have no graph -/

/-- A graph cannot be made because of the node itself, and this is why. -/
inductive Breaks : Node → Fault → Prop
  | separator (id : Nat) : Breaks (.separator id) .separatorLeft
  | group {id : Nat} {alternatives : List (List Node)} {optional : Bool}
      (hempty : [] ∈ alternatives) : Breaks (.group id alternatives optional) .emptyAlternative

theorem breaks_group_iff {id : Nat} {alternatives : List (List Node)} {optional : Bool}
    {fault : Fault} : (group id alternatives optional).Breaks fault ↔
      [] ∈ alternatives ∧ fault = .emptyAlternative := by
  constructor
  · rintro ⟨⟩
    exact ⟨‹_›, rfl⟩
  · rintro ⟨hempty, rfl⟩
    exact .group hempty

/-- What a step comes to: the result, if nothing is faulty, and otherwise one of the faults. -/
inductive Comes {α : Type} (result : α) (faulty : Fault → Prop) : Except Fault α → Prop
  | ok (h : ∀ fault, ¬ faulty fault) : Comes result faulty (.ok result)
  | error {fault : Fault} (h : faulty fault) : Comes result faulty (.error fault)

namespace Comes

variable {α : Type} {faulty others : Fault → Prop}

/-- Two steps come to both results, and either may be faulty. -/
theorem bind {β γ : Type} {first : Except Fault α} {second : Except Fault β} {result : α}
    {other : β} {f : α → β → γ} (h : Comes result faulty first)
    (hother : Comes other others second) :
    Comes (f result other) (fun fault => faulty fault ∨ others fault)
      (do let value ← first; let next ← second; return f value next) := by
  cases h with
  | error h => exact .error (.inl h)
  | ok h =>
    cases hother with
    | error hothers => exact .error (.inr hothers)
    | ok hothers => exact .ok fun fault => not_or.2 ⟨h fault, hothers fault⟩

theorem map {β : Type} {step : Except Fault α} {result : α} (f : α → β)
    (h : Comes result faulty step) : Comes (f result) faulty (do return f (← step)) := by
  cases h with
  | error h => exact .error h
  | ok h => exact .ok h

theorem congr {step : Except Fault α} {result : α} (h : Comes result faulty step)
    (heq : ∀ fault, faulty fault ↔ others fault) : Comes result others step := by
  obtain rfl : faulty = others := funext fun fault => propext (heq fault)
  exact h

end Comes

mutual

/-- The inventory of a node has its members, unless one of them is faulty. -/
theorem comes_inventory : (node : Node) →
    Comes node.members (fun fault => ∃ inner ∈ node.members, inner.Breaks fault) node.inventory
  | literal .. => .ok fun _ ⟨_, hmem, h⟩ => nomatch List.mem_singleton.1 hmem ▸ h
  | parameter .. => .ok fun _ ⟨_, hmem, h⟩ => nomatch List.mem_singleton.1 hmem ▸ h
  | group id alternatives optional => by
    refine ((comes_inventoryOfAll alternatives).map (group id alternatives optional :: ·)).congr
      fun fault => ?_
    rw [members, List.exists_mem_cons_iff, breaks_group_iff]
  | separator id => .error ⟨separator id, List.mem_singleton.2 rfl, .separator id⟩

theorem comes_inventoryOfSequence : (nodes : List Node) →
    Comes (membersOfSequence nodes)
      (fun fault => ∃ inner ∈ membersOfSequence nodes, inner.Breaks fault)
      (inventoryOfSequence nodes)
  | [] => .ok fun _ => by simp [membersOfSequence]
  | node :: rest => by
    have h := (comes_inventory node).bind (f := (· ++ ·)) (comes_inventoryOfSequence rest)
    refine h.congr fun fault => ?_
    rw [membersOfSequence]
    simp only [List.mem_append, or_and_right, exists_or]

/-- An empty alternative is a fault besides those of the members. -/
theorem comes_inventoryOfAll : (alternatives : List (List Node)) →
    Comes (membersOfAll alternatives)
      (fun fault => [] ∈ alternatives ∧ fault = .emptyAlternative ∨
        ∃ inner ∈ membersOfAll alternatives, inner.Breaks fault)
      (inventoryOfAll alternatives)
  | [] => .ok fun _ => by simp [membersOfAll]
  | [] :: rest => .error (.inl ⟨List.mem_cons_self, rfl⟩)
  | (node :: nodes) :: rest => by
    have h := (comes_inventoryOfSequence (node :: nodes)).bind (f := (· ++ ·))
      (comes_inventoryOfAll rest)
    refine h.congr fun fault => ?_
    rw [membersOfAll]
    simp only [List.mem_append, or_and_right, exists_or, List.mem_cons, reduceCtorEq, false_or]
    exact or_left_comm

end

end Node

open Node Wiring

/-! ## The states of a tree -/

section Tree

variable {nodes : List Node}

/-- The id of a state tells its kind: the end state and the start state go before the leaves, and of
these the last one with the id counts. -/
theorem kind?_statesOf (nodes : List Node) (id : Nat) : (statesOf nodes).kind? id =
    if endId nodes = id then some (.accept ()) else if 0 = id then some .start else
      (lastWith? Leaf.id (leavesOf nodes) id).map Leaf.kind := by
  rw [kind?_statesOf_eq, kind?_addLeaves_eq]
  simp [leavesOf, kind?]

/-- The states that an edge may lead to. -/
def statesIn (nodes : List Node) : Set Nat := {id | id ∈ statesOf nodes}

/-- The states that an edge may leave: all but the end state. -/
def openStatesIn (nodes : List Node) : Set Nat := {id | id ∈ statesOf nodes ∧ id ≠ endId nodes}

theorem openStatesIn_subset : openStatesIn nodes ⊆ statesIn nodes := fun _ hid => hid.1

/-- Edges may leave the start state. -/
theorem zero_mem_openStatesIn (nodes : List Node) : 0 ∈ openStatesIn nodes := by
  refine ⟨mem_iff_exists_kind?.2 ⟨.start, ?_⟩, by simp [endId]⟩
  rw [kind?_statesOf, if_neg (by simp [endId]), if_pos rfl]

theorem endId_mem_statesIn (nodes : List Node) : endId nodes ∈ statesIn nodes :=
  mem_iff_exists_kind?.2 ⟨.accept (), by rw [kind?_statesOf, if_pos rfl]⟩

/-- The end state has a greater id than every node. -/
theorem id_lt_endId {node : Node} (hnode : node ∈ membersOfSequence nodes) :
    node.id < endId nodes :=
  Nat.lt_succ_of_le (le_greatestId hnode)

/-- Edges may leave the leaves of the tree. -/
theorem leaf_mem_openStatesIn {leaf : Leaf} (hleaf : leaf ∈ leavesOf nodes) :
    leaf.id ∈ openStatesIn nodes := by
  obtain ⟨node, hnode, hsome⟩ := List.mem_filterMap.1 hleaf
  have hlt := id_lt_endId hnode
  rw [← id_eq_of_leaf? hsome] at hlt
  refine ⟨mem_iff_exists_kind?.2 ?_, Nat.ne_of_lt hlt⟩
  rw [kind?_statesOf, if_neg (Nat.ne_of_gt hlt)]
  split
  · exact ⟨_, rfl⟩
  · obtain ⟨last, hlast⟩ := exists_lastWith? hleaf
    exact ⟨last.kind, by rw [hlast]; rfl⟩

/-! ## Edges between the states of a tree -/

/-- None of the nodes of the tree is a reason that it has no graph. -/
def Whole (nodes : List Node) : Prop :=
  ∀ node ∈ membersOfSequence nodes, ∀ fault, ¬ node.Breaks fault

/-- The junction of an id, by the nodes of the tree. -/
abbrev junctionIn (nodes : List Node) (id : Nat) : Junction :=
  (Junctions.ofNodes (membersOfSequence nodes)).find id

/-- The junction of a node has states that edges may leave. -/
theorem within_junctionIn_of_mem (h : Whole nodes) {id : Nat}
    (hid : id ∈ (membersOfSequence nodes).map Node.id) :
    (junctionIn nodes id).Within (openStatesIn nodes) := by
  refine Junctions.within_find (unfolded_tree nodes) (fun node hnode hgroup => ?_) hid
  have hleaf (leaf : Leaf) (hsome : node.leaf? = some leaf) : node.id ∈ openStatesIn nodes :=
    id_eq_of_leaf? hsome ▸ leaf_mem_openStatesIn (List.mem_filterMap.2 ⟨node, hnode, hsome⟩)
  cases node with
  | literal id text => exact hleaf _ rfl
  | parameter id name optional => exact hleaf _ rfl
  | group id alternatives optional => cases hgroup
  | separator id => exact absurd (.separator id) (h _ hnode _)

/-- Edges that leave an id of the tree or an open state leave open states. -/
theorem within_junctionIn (h : Whole nodes) {id : Nat}
    (hid : id ∈ (membersOfSequence nodes).map Node.id ∨ id ∈ openStatesIn nodes) :
    (junctionIn nodes id).Within (openStatesIn nodes) := by
  by_cases hmem : id ∈ (membersOfSequence nodes).map Node.id
  · exact within_junctionIn_of_mem h hmem
  · rw [junctionIn, Junctions.find_of_notMem hmem]
    exact hid.resolve_left hmem

/-- Edges to an id of the tree or to a state lead to states. -/
theorem entries_junctionIn (h : Whole nodes) {id : Nat}
    (hid : id ∈ (membersOfSequence nodes).map Node.id ∨ id ∈ statesIn nodes) :
    ∀ entry ∈ (junctionIn nodes id).entries, entry ∈ statesIn nodes := by
  intro entry hentry
  by_cases hmem : id ∈ (membersOfSequence nodes).map Node.id
  · exact openStatesIn_subset (Junction.mem_of_mem_entries (within_junctionIn_of_mem h hmem) hentry)
  · rw [junctionIn, Junctions.find_of_notMem hmem] at hentry
    obtain rfl := List.mem_singleton.1 hentry
    exact hid.resolve_left hmem

/-- Links between such junctions go from open states to states. -/
theorem mem_prod_of_mem_links_junctionIn (h : Whole nodes) {source target : Nat}
    (hsource : source ∈ (membersOfSequence nodes).map Node.id ∨ source ∈ openStatesIn nodes)
    (htarget : target ∈ (membersOfSequence nodes).map Node.id ∨ target ∈ statesIn nodes)
    {link : Nat × Nat}
    (hlink : link ∈ (junctionIn nodes source).links (junctionIn nodes target)) :
    link ∈ openStatesIn nodes ×ˢ statesIn nodes :=
  Junction.mem_prod_of_mem_links openStatesIn_subset (entries_junctionIn h htarget)
    (within_junctionIn h hsource) hlink

/-- The edges through the tree go from open states to states. -/
theorem mem_prod_of_mem_outerLinks (h : Whole nodes) {link : Nat × Nat}
    (hlink : link ∈ outerLinks (Junctions.ofNodes (membersOfSequence nodes)) (endId nodes) nodes) :
    link ∈ openStatesIn nodes ×ˢ statesIn nodes := by
  have hid {node : Node} (hnode : node ∈ nodes) :
      node.id ∈ (membersOfSequence nodes).map Node.id :=
    List.mem_map_of_mem (mem_membersOfSequence hnode)
  cases nodes with
  | nil => cases hlink
  | cons node rest =>
    simp only [outerLinks, List.mem_append] at hlink
    rcases hlink with (hfirst | hinside) | hlast
    · exact mem_prod_of_mem_links_junctionIn h (.inr (zero_mem_openStatesIn _))
        (.inl (hid List.mem_cons_self)) hfirst
    · refine Junction.mem_prod_of_mem_linksInside openStatesIn_subset ?_ hinside
      rw [Junction.withinSequence_iff]
      intro junction hjunction
      obtain ⟨inner, hinner, rfl⟩ := List.mem_map.1 hjunction
      exact within_junctionIn h (.inl (hid hinner))
    · exact mem_prod_of_mem_links_junctionIn h (.inl (hid (List.getLast_mem _)))
        (.inr (endId_mem_statesIn _)) hlast

/-! ## Compiling any tree -/

/-- The wiring has the states of the tree, no edge twice, and edges from open states to states
only. -/
structure WiredIn (nodes : List Node) (wiring : Wiring) : Prop where
  kind?_eq : ∀ id, wiring.kind? id = (statesOf nodes).kind? id
  simple : wiring.Simple
  edges_subset : wiring.edges ⊆ openStatesIn nodes ×ˢ statesIn nodes

namespace WiredIn

variable {wiring : Wiring}

/-- The states of the wiring are those of the tree. -/
theorem mem_iff (h : WiredIn nodes wiring) {id : Nat} : id ∈ wiring ↔ id ∈ statesIn nodes := by
  rw [mem_iff_exists_kind?, h.kind?_eq, ← mem_iff_exists_kind?]
  rfl

theorem statesOf (nodes : List Node) : WiredIn nodes (statesOf nodes) := by
  refine ⟨fun _ => rfl, fun id => ?_, ?_⟩
  · rw [IsTree.next_statesOf]
    exact .nil
  · rw [edges_statesOf]
    exact Set.empty_subset _

/-- More edges of this sort can be added. -/
theorem connectAll? (h : WiredIn nodes wiring) {links : List (Nat × Nat)}
    (hlinks : ∀ link ∈ links, link ∈ openStatesIn nodes ×ˢ statesIn nodes) :
    ∃ wired, wiring.connectAll? links = .ok wired ∧ WiredIn nodes wired := by
  have hmem : ∀ link ∈ links, link.1 ∈ wiring ∧ link.2 ∈ wiring := by
    intro link hlink
    obtain ⟨hsource, htarget⟩ := hlinks link hlink
    exact ⟨h.mem_iff.2 (openStatesIn_subset hsource), h.mem_iff.2 htarget⟩
  obtain ⟨wired, hwired, hkind, hedges⟩ := connectAll?_of_mem hmem
  refine ⟨wired, hwired, fun id => (hkind id).trans (h.kind?_eq id),
    h.simple.connectAll? hwired, ?_⟩
  rw [hedges]
  exact Set.union_subset h.edges_subset hlinks

end WiredIn

mutual

/-- The states that are found before a node have edges. -/
theorem exists_edge_of_mem_intoNode {wiring : Wiring} {source : Nat} : {node : Node} →
    source ∈ wiring.intoNode node → ∃ target, (source, target) ∈ wiring.edges
  | .literal own _, h => ⟨own, mem_sources_iff.1 h⟩
  | .parameter own _ _, h => ⟨own, mem_sources_iff.1 h⟩
  | .group _ _ _, h => exists_edge_of_mem_intoFirsts h
  | .separator own, h => ⟨own, mem_sources_iff.1 h⟩

theorem exists_edge_of_mem_intoFirsts {wiring : Wiring} {source : Nat} :
    {alternatives : List (List Node)} → source ∈ wiring.intoFirsts alternatives →
    ∃ target, (source, target) ∈ wiring.edges
  | _ :: _, h => (List.mem_append.1 h).elim exists_edge_of_mem_intoFirst
    exists_edge_of_mem_intoFirsts

theorem exists_edge_of_mem_intoFirst {wiring : Wiring} {source : Nat} : {nodes : List Node} →
    source ∈ wiring.intoFirst nodes → ∃ target, (source, target) ∈ wiring.edges
  | _ :: _, h => exists_edge_of_mem_intoNode h

end

mutual

/-- The states that are found behind a node have edges to them. -/
theorem exists_edge_of_mem_outOfNode {wiring : Wiring} {target : Nat} : {node : Node} →
    target ∈ wiring.outOfNode node → ∃ source, (source, target) ∈ wiring.edges
  | .literal own _, h => ⟨own, h⟩
  | .parameter own _ _, h => ⟨own, h⟩
  | .group _ _ _, h => exists_edge_of_mem_outOfLasts h
  | .separator own, h => ⟨own, h⟩

theorem exists_edge_of_mem_outOfLasts {wiring : Wiring} {target : Nat} :
    {alternatives : List (List Node)} → target ∈ wiring.outOfLasts alternatives →
    ∃ source, (source, target) ∈ wiring.edges
  | _ :: _, h => (List.mem_append.1 h).elim exists_edge_of_mem_outOfLast
    exists_edge_of_mem_outOfLasts

theorem exists_edge_of_mem_outOfLast {wiring : Wiring} {target : Nat} : {nodes : List Node} →
    target ∈ wiring.outOfLast nodes → ∃ source, (source, target) ∈ wiring.edges
  | [_], h => exists_edge_of_mem_outOfNode h
  | _ :: second :: rest, h => by
    have hrest : target ∈ wiring.outOfLast (second :: rest) := h
    exact exists_edge_of_mem_outOfLast hrest

end

/-- A bypass leads on from open states to states, whatever node it is around. -/
theorem WiredIn.mem_prod_of_mem_bypassLinks {wiring : Wiring} (h : WiredIn nodes wiring)
    (hwhole : Whole nodes) {node : Node} {link : Nat × Nat}
    (hlink : link ∈ wiring.bypassLinks (Junctions.ofNodes (membersOfSequence nodes)) node) :
    link ∈ openStatesIn nodes ×ˢ statesIn nodes := by
  rw [bypassLinks, List.mem_flatMap] at hlink
  obtain ⟨source, hsource, hlink⟩ := hlink
  obtain ⟨target, htarget, hlink⟩ := List.mem_flatMap.1 hlink
  obtain ⟨_, hout⟩ := exists_edge_of_mem_intoNode hsource
  obtain ⟨_, hinto⟩ := exists_edge_of_mem_outOfNode htarget
  exact mem_prod_of_mem_links_junctionIn hwhole (.inr (h.edges_subset hout).1)
    (.inr (h.edges_subset hinto).2) hlink

mutual

theorem bypass?_of_wiredIn (hwhole : Whole nodes) {wiring : Wiring} : {node : Node} →
    WiredIn nodes wiring →
    ∃ wired, bypass? (Junctions.ofNodes (membersOfSequence nodes)) wiring node = .ok wired ∧
      WiredIn nodes wired
  | .literal .., h => ⟨wiring, rfl, h⟩
  | .parameter _ _ false, h => ⟨wiring, rfl, h⟩
  | .parameter _ _ true, h => h.connectAll? fun _ => h.mem_prod_of_mem_bypassLinks hwhole
  | .group _ _ false, h => bypassAlternatives?_of_wiredIn hwhole h
  | .group _ _ true, h => by
    obtain ⟨between, hbetween, hover⟩ :=
      h.connectAll? fun _ => h.mem_prod_of_mem_bypassLinks hwhole
    obtain ⟨wired, hwired, hrest⟩ := bypassAlternatives?_of_wiredIn hwhole hover
    exact ⟨wired, bind_eq_ok_iff.2 ⟨between, hbetween, hwired⟩, hrest⟩
  | .separator _, h => ⟨wiring, rfl, h⟩

theorem bypassAlternatives?_of_wiredIn (hwhole : Whole nodes) {wiring : Wiring} :
    {alternatives : List (List Node)} → WiredIn nodes wiring →
    ∃ wired, bypassAlternatives? (Junctions.ofNodes (membersOfSequence nodes)) wiring
        alternatives = .ok wired ∧ WiredIn nodes wired
  | [], h => ⟨wiring, rfl, h⟩
  | _ :: _, h => by
    obtain ⟨between, hbetween, hfirst⟩ := bypassSequence?_of_wiredIn hwhole h
    obtain ⟨wired, hwired, hrest⟩ := bypassAlternatives?_of_wiredIn hwhole hfirst
    exact ⟨wired, bind_eq_ok_iff.2 ⟨between, hbetween, hwired⟩, hrest⟩

/-- The bypasses of any nodes can be added. -/
theorem bypassSequence?_of_wiredIn (hwhole : Whole nodes) {wiring : Wiring} :
    {inner : List Node} → WiredIn nodes wiring →
    ∃ wired, bypassSequence? (Junctions.ofNodes (membersOfSequence nodes)) wiring inner =
      .ok wired ∧ WiredIn nodes wired
  | [], h => ⟨wiring, rfl, h⟩
  | _ :: _, h => by
    obtain ⟨between, hbetween, hfirst⟩ := bypass?_of_wiredIn hwhole h
    obtain ⟨wired, hwired, hrest⟩ := bypassSequence?_of_wiredIn hwhole hfirst
    exact ⟨wired, bind_eq_ok_iff.2 ⟨between, hbetween, hwired⟩, hrest⟩

end

theorem WiredIn.next_endId {wiring : Wiring} (h : WiredIn nodes wiring) :
    wiring.next (endId nodes) = [] := by
  refine List.eq_nil_iff_forall_not_mem.2 fun target htarget => ?_
  have hedge : (endId nodes, target) ∈ wiring.edges := htarget
  exact (h.edges_subset hedge).1.2 rfl

/-- A tree that nothing is wrong with has a graph. -/
theorem exists_compile_eq_ok (hne : nodes ≠ []) (hwhole : Whole nodes)
    (hinventory : inventoryOfSequence nodes = .ok (membersOfSequence nodes)) :
    ∃ wiring, compile nodes = .ok wiring.toGraph ∧ WiredIn nodes wiring := by
  obtain ⟨straight, hstraight, hthrough⟩ := (WiredIn.statesOf nodes).connectAll?
    fun _ => mem_prod_of_mem_outerLinks hwhole
  obtain ⟨wiring, hwiring, hwired⟩ := bypassSequence?_of_wiredIn hwhole hthrough
  exact ⟨wiring, compile_eq_ok hne hinventory hstraight hwiring hwired.next_endId, hwired⟩

/-! ## The form of the graph -/

/-- The leaves that have the states of a tree, in the order of their ids: of the leaves with one id
the last, and none with the id of the start state. -/
structure Keeps (nodes : List Node) (leaves : List Leaf) : Prop where
  sorted : leaves.Pairwise fun leaf other => leaf.id < other.id
  mem_iff : ∀ leaf, leaf ∈ leaves ↔
    leaf.id ≠ 0 ∧ lastWith? Leaf.id (leavesOf nodes) leaf.id = some leaf

/-- The states of the tree in ascending order, without the start state and the end state. -/
theorem exists_keeps (nodes : List Node) : ∃ leaves, Keeps nodes leaves := by
  have hid {id : Nat} {leaf : Leaf}
      (h : leaf ∈ if id = 0 then none else lastWith? Leaf.id (leavesOf nodes) id) :
      leaf.id = id ∧ id ≠ 0 ∧ lastWith? Leaf.id (leavesOf nodes) id = some leaf := by
    obtain ⟨hzero, hlast⟩ := Option.ite_none_left_eq_some.1 h
    exact ⟨(mem_of_lastWith? hlast).2, hzero, hlast⟩
  refine ⟨(statesOf nodes).keys.filterMap fun id =>
    if id = 0 then none else lastWith? Leaf.id (leavesOf nodes) id, ?_, fun leaf => ?_⟩
  · -- The leaves stand in the order of the ids that they are looked up by.
    refine (pairwise_keys (statesOf nodes)).filterMap _ fun id other hlt leaf hleaf last hlast => ?_
    rwa [(hid hleaf).1, (hid hlast).1]
  · rw [List.mem_filterMap]
    constructor
    · rintro ⟨_, -, hleaf⟩
      obtain ⟨rfl, hzero, hlast⟩ := hid hleaf
      exact ⟨hzero, hlast⟩
    · rintro ⟨hzero, hlast⟩
      refine ⟨leaf.id, Std.TreeMap.mem_keys.2 ?_, by rwa [if_neg hzero]⟩
      exact (leaf_mem_openStatesIn (mem_of_lastWith? hlast).1).1

namespace Keeps

variable {leaves : List Leaf}

theorem mem_leavesOf (h : Keeps nodes leaves) {leaf : Leaf} (hleaf : leaf ∈ leaves) :
    leaf ∈ leavesOf nodes :=
  (mem_of_lastWith? ((h.mem_iff leaf).1 hleaf).2).1

/-- Each id of a leaf other than that of the start state is kept. -/
theorem exists_mem (h : Keeps nodes leaves) {leaf : Leaf} (hleaf : leaf ∈ leavesOf nodes)
    (hzero : leaf.id ≠ 0) : ∃ last ∈ leaves, last.id = leaf.id := by
  obtain ⟨last, hlast⟩ : ∃ last, lastWith? Leaf.id (leavesOf nodes) leaf.id = some last :=
    exists_lastWith? hleaf
  have hid : last.id = leaf.id := (mem_of_lastWith? hlast).2
  exact ⟨last, (h.mem_iff last).2 (hid ▸ ⟨hzero, hlast⟩), hid⟩

/-- What is kept are literals and captures. -/
theorem takes (h : Keeps nodes leaves) {leaf : Leaf} (hleaf : leaf ∈ leaves) :
    (∃ text, leaf.kind = .fixed text) ∨ ∃ name, leaf.kind = .capture name := by
  obtain ⟨node, -, hsome⟩ := List.mem_filterMap.1 (h.mem_leavesOf hleaf)
  cases node with
  | literal own text => exact .inl ⟨text, Option.some.inj hsome ▸ rfl⟩
  | parameter own name optional => exact .inr ⟨name, Option.some.inj hsome ▸ rfl⟩
  | group own alternatives optional => cases hsome
  | separator own => cases hsome

end Keeps

/-- The start state comes first and the end state last. No edge leaves the end state, no state has
an edge twice, and every edge leads to a state. -/
structure Regular (graph : Graph Unit) : Prop where
  start_iff : ∀ (place : Nat) state, graph[place]? = some state → (state.kind = .start ↔ place = 0)
  accept_iff : ∀ (place : Nat) state, graph[place]? = some state →
    (state.kind = .accept () ↔ place + 1 = graph.size)
  stops : ∀ (place : Nat) state, graph[place]? = some state → place + 1 = graph.size →
    state.next = #[]
  nodup : ∀ (place : Nat) state, graph[place]? = some state → state.next.toList.Nodup
  closed : ∀ (place : Nat) state, graph[place]? = some state →
    ∀ target ∈ state.next, target < graph.size

namespace WiredIn

variable {wiring : Wiring}

theorem le_endId (h : WiredIn nodes wiring) {id : Nat} (hid : id ∈ wiring) : id ≤ endId nodes := by
  rcases IsTree.eq_leaf_of_mem (h.mem_iff.1 hid) with rfl | rfl | ⟨leaf, hleaf, rfl⟩
  · exact Nat.le_refl _
  · exact Nat.zero_le _
  · obtain ⟨node, hnode, hsome⟩ := List.mem_filterMap.1 hleaf
    rw [id_eq_of_leaf? hsome]
    exact Nat.le_of_lt (id_lt_endId hnode)

/-- The states are the start state, those of the leaves that are kept, and the end state. -/
theorem keys_eq (h : WiredIn nodes wiring) {leaves : List Leaf} (hkeeps : Keeps nodes leaves) :
    wiring.keys = 0 :: (leaves.map Leaf.id ++ [endId nodes]) := by
  have hpos (id : Nat) (hid : id ∈ leaves.map Leaf.id) : 0 < id := by
    obtain ⟨leaf, hleaf, rfl⟩ := List.mem_map.1 hid
    exact Nat.pos_of_ne_zero ((hkeeps.mem_iff leaf).1 hleaf).1
  have hlt (id : Nat) (hid : id ∈ leaves.map Leaf.id) : id < endId nodes := by
    obtain ⟨leaf, hleaf, rfl⟩ := List.mem_map.1 hid
    obtain ⟨hmem, hne⟩ := leaf_mem_openStatesIn (hkeeps.mem_leavesOf hleaf)
    exact Nat.lt_of_le_of_ne (h.le_endId (h.mem_iff.2 hmem)) hne
  have hsorted : (0 :: (leaves.map Leaf.id ++ [endId nodes])).Pairwise (· < ·) := by
    simp only [List.pairwise_cons, List.pairwise_append, List.mem_append, List.mem_singleton]
    refine ⟨?_, List.pairwise_map.2 hkeeps.sorted, by simp, ?_⟩
    · rintro id (hid | rfl)
      · exact hpos id hid
      · exact Nat.succ_pos _
    · rintro id hid _ rfl
      exact hlt id hid
  refine (pairwise_keys wiring).eq_of_mem_iff hsorted fun id => ?_
  rw [Std.TreeMap.mem_keys, h.mem_iff, List.mem_cons, List.mem_append, List.mem_singleton,
    List.mem_map]
  constructor
  · intro hid
    rcases IsTree.eq_leaf_of_mem hid with hend | hzero | ⟨leaf, hleaf, rfl⟩
    · exact .inr (.inr hend)
    · exact .inl hzero
    · by_cases hzero : leaf.id = 0
      · exact .inl hzero
      · exact .inr (.inl (hkeeps.exists_mem hleaf hzero))
  · rintro (rfl | ⟨leaf, hleaf, rfl⟩ | rfl)
    · exact openStatesIn_subset (zero_mem_openStatesIn nodes)
    · exact openStatesIn_subset (leaf_mem_openStatesIn (hkeeps.mem_leavesOf hleaf))
    · exact endId_mem_statesIn nodes

/-- The kinds of the states in their places. -/
theorem map_kind_toGraph (h : WiredIn nodes wiring) {leaves : List Leaf}
    (hkeeps : Keeps nodes leaves) : wiring.toGraph.toList.map State.kind =
      .start :: (leaves.map Leaf.kind ++ [.accept ()]) := by
  have hleaves : ∀ leaf ∈ leaves, (wiring.kind? ∘ Leaf.id) leaf = (some ∘ Leaf.kind) leaf := by
    intro leaf hleaf
    obtain ⟨hzero, hlast⟩ := (hkeeps.mem_iff leaf).1 hleaf
    have hend := (leaf_mem_openStatesIn (hkeeps.mem_leavesOf hleaf)).2
    rw [Function.comp_apply, h.kind?_eq, kind?_statesOf, if_neg (Ne.symm hend),
      if_neg (Ne.symm hzero), hlast]
    rfl
  have hstart : wiring.kind? 0 = some .start := by
    rw [h.kind?_eq, kind?_statesOf, if_neg (by simp [endId]), if_pos rfl]
  have hend : wiring.kind? (endId nodes) = some (.accept ()) := by
    rw [h.kind?_eq, kind?_statesOf, if_pos rfl]
  refine List.map_injective_iff.2 (Option.some_injective _) ?_
  rw [Wiring.map_kind_toGraph, h.keys_eq hkeeps]
  simp only [List.map_cons, List.map_append, List.map_map, List.map_nil, hstart, hend,
    List.map_congr_left hleaves]

/-- A state is the first one, that of a leaf, or the last one. -/
theorem place_cases (h : WiredIn nodes wiring) {place : Nat} {state : State Unit}
    (hstate : wiring.toGraph[place]? = some state) :
    (place = 0 ∧ place + 1 < wiring.toGraph.size ∧ state.kind = .start) ∨
      (0 < place ∧ place + 1 < wiring.toGraph.size ∧
        ((∃ text, state.kind = .fixed text) ∨ ∃ name, state.kind = .capture name)) ∨
      (0 < place ∧ place + 1 = wiring.toGraph.size ∧ state.kind = .accept ()) := by
  obtain ⟨leaves, hkeeps⟩ := exists_keeps nodes
  have hsize : wiring.toGraph.size = leaves.length + 2 := by
    rw [size_toGraph_eq_length, h.keys_eq hkeeps]
    simp
  have hkind : (Kind.start :: (leaves.map Leaf.kind ++ [.accept ()]))[place]? =
      some state.kind := by
    rw [← h.map_kind_toGraph hkeeps, List.getElem?_map, Array.getElem?_toList, hstate]
    rfl
  rw [hsize]
  cases place with
  | zero => exact .inl ⟨rfl, by omega, (Option.some.inj hkind).symm⟩
  | succ place =>
    rw [List.getElem?_cons_succ, List.getElem?_append, List.length_map] at hkind
    split at hkind
    · next hlt =>
      obtain ⟨leaf, hleaf, hown⟩ := List.mem_map.1 (List.mem_of_getElem? hkind)
      exact .inr (.inl ⟨by omega, by omega, hown ▸ hkeeps.takes hleaf⟩)
    · next hge =>
      have hplace := (List.getElem?_eq_some_iff.1 hkind).1
      rw [List.length_singleton] at hplace
      have hlast : state.kind = .accept () :=
        (List.mem_singleton.1 (List.mem_of_getElem? hkind))
      exact .inr (.inr ⟨by omega, by omega, hlast⟩)

/-- A wiring of this sort makes a regular graph. -/
theorem regular_toGraph (h : WiredIn nodes wiring) : Regular wiring.toGraph := by
  have hclosed : ∀ edge ∈ wiring.edges, edge.2 ∈ wiring :=
    fun _ hedge => h.mem_iff.2 (h.edges_subset hedge).2
  refine ⟨fun place state hstate => ?_, fun place state hstate => ?_, ?_,
    fun _ _ => nodup_next_toGraph h.simple hclosed, ?_⟩
  · rcases h.place_cases hstate with ⟨hplace, -, hkind⟩ | ⟨hpos, -, ⟨_, hkind⟩ | ⟨_, hkind⟩⟩ |
      ⟨hpos, -, hkind⟩
    · exact iff_of_true hkind hplace
    all_goals exact iff_of_false (by simp [hkind]) (by omega)
  · rcases h.place_cases hstate with ⟨-, hlt, hkind⟩ | ⟨-, hlt, ⟨_, hkind⟩ | ⟨_, hkind⟩⟩ |
      ⟨-, hlast, hkind⟩
    · exact iff_of_false (by simp [hkind]) (by omega)
    · exact iff_of_false (by simp [hkind]) (by omega)
    · exact iff_of_false (by simp [hkind]) (by omega)
    · exact iff_of_true hkind hlast
  · intro place state hstate hlast
    obtain ⟨own, hown⟩ := mem_iff_exists_getElem?.1 (h.mem_iff.2 (endId_mem_statesIn nodes))
    have hback := back?_toGraph hown fun _ => h.le_endId
    rw [Array.back?_eq_getElem?, ← hlast, Nat.add_sub_cancel, hstate] at hback
    have hnext := h.next_endId
    rw [next_of_getElem? hown, Array.toList_eq_nil_iff] at hnext
    simp [Option.some.inj hback, placed, hnext]
  · intro place state hstate target htarget
    obtain ⟨id, own, hown, -, rfl⟩ := exists_of_getElem?_toGraph hstate
    obtain ⟨other, hother, rfl⟩ := Array.mem_map.1 htarget
    exact place_lt_size (hclosed _ ((mem_edges_iff_of_getElem? hown).2 hother))

end WiredIn

/-- A tree is compiled, or it is refused for the fault of one of its nodes or for having none. -/
theorem compile_cases (nodes : List Node) :
    (nodes = [] ∧ compile nodes = .error (.malformed .emptySequence)) ∨
      (nodes ≠ [] ∧ ∃ fault, compile nodes = .error (.malformed fault) ∧
        ∃ node ∈ membersOfSequence nodes, node.Breaks fault) ∨
      (nodes ≠ [] ∧ Whole nodes ∧
        ∃ wiring, compile nodes = .ok wiring.toGraph ∧ WiredIn nodes wiring) := by
  by_cases hne : nodes = []
  · subst hne
    exact .inl ⟨rfl, rfl⟩
  · have hnonempty : nodes.isEmpty = false := by simpa using hne
    have hcomes := comes_inventoryOfSequence nodes
    -- The inventory is the only step that can find a fault: without one every later step succeeds.
    generalize hinventory : inventoryOfSequence nodes = inventory at hcomes
    cases hcomes with
    | @error fault hbreaks =>
      refine .inr (.inl ⟨hne, fault, ?_, hbreaks⟩)
      simp [compile, bind, Except.bind, hnonempty, hinventory]
    | ok hwhole =>
      have hall : Whole nodes := fun node hnode fault hbreaks =>
        hwhole fault ⟨node, hnode, hbreaks⟩
      exact .inr (.inr ⟨hne, hall, exists_compile_eq_ok hne hall hinventory⟩)

/-- Whatever ids the nodes of a tree carry, the junction of an id is that of the last node with it,
and leads on by the same table. The tree is refused if and only if it has no node, an empty
alternative or a separator, and one of these is the error. Otherwise its graph has the start state,
a state for each id of a literal or parameter other than 0, in ascending order, and the end state;
no state has an edge twice, and the edges lead from state to state and never leave the end state. -/
theorem compile_outcomes (nodes : List Node) :
    (∀ id, junctionIn nodes id = ((lastWith? Node.id (membersOfSequence nodes) id).map
      (Junctions.ofNode (Junctions.ofNodes (membersOfSequence nodes)))).getD (.state id)) ∧
    ((∃ error, compile nodes = .error error) ↔
      nodes = [] ∨ ∃ node ∈ membersOfSequence nodes, ∃ fault, node.Breaks fault) ∧
    (∀ error, compile nodes = .error error → ∃ fault, error = .malformed fault ∧
      (nodes = [] ∧ fault = .emptySequence ∨
        ∃ node ∈ membersOfSequence nodes, node.Breaks fault)) ∧
    ∀ graph, compile nodes = .ok graph → Regular graph ∧ ∃ leaves, Keeps nodes leaves ∧
      (∀ leaf ∈ leaves, (∃ text, leaf.kind = .fixed text) ∨ ∃ name, leaf.kind = .capture name) ∧
      graph.toList.map State.kind = .start :: (leaves.map Leaf.kind ++ [.accept ()]) := by
  refine ⟨Junctions.find_ofNodes (unfolded_tree nodes), ?_⟩
  rcases compile_cases nodes with ⟨rfl, hempty⟩ | ⟨hne, fault, hfault, hbreaks⟩ |
    ⟨hne, hwhole, wiring, hok, hwired⟩
  · refine ⟨iff_of_true ⟨_, hempty⟩ (.inl rfl), ?_, by simp [hempty]⟩
    intro error herror
    obtain rfl := Except.error.inj (hempty.symm.trans herror)
    exact ⟨_, rfl, .inl ⟨rfl, rfl⟩⟩
  · obtain ⟨node, hnode, hbreak⟩ := hbreaks
    refine ⟨iff_of_true ⟨_, hfault⟩ (.inr ⟨node, hnode, fault, hbreak⟩), ?_, by simp [hfault]⟩
    intro error herror
    obtain rfl := Except.error.inj (hfault.symm.trans herror)
    exact ⟨fault, rfl, .inr ⟨node, hnode, hbreak⟩⟩
  · refine ⟨iff_of_false (by simp [hok]) ?_, by simp [hok], ?_⟩
    · rintro (hempty | ⟨node, hnode, fault, hbreaks⟩)
      · exact hne hempty
      · exact hwhole node hnode fault hbreaks
    · intro graph hgraph
      obtain rfl := Except.ok.inj (hok.symm.trans hgraph)
      obtain ⟨leaves, hkeeps⟩ := exists_keeps nodes
      exact ⟨hwired.regular_toGraph, leaves, hkeeps, fun _ => hkeeps.takes,
        hwired.map_kind_toGraph hkeeps⟩

/-- A tree whose first group leads on to its second one, which begins with the start state's id and
ends with that of the last node. -/
def tangledTree : List Node :=
  [.group 2 [[.literal 1 ['x']]] true,
    .group 1 [[.literal 0 ['y'], .parameter 3 ['p'] true]] true, .literal 3 ['z']]

/-- The last nodes with the ids 1 and 3 are a group and a literal. No edge leads to the state that
the first literal has all the same, and the start state has an edge to itself. -/
theorem compile_tangledTree : ∃ graph, compile tangledTree = .ok graph ∧ Regular graph ∧
    graph.toList = [⟨.start, #[0, 2, 3]⟩, ⟨.fixed ['x'], #[]⟩, ⟨.fixed ['z'], #[0, 2, 3]⟩,
      ⟨.accept (), #[]⟩] := by
  have hcompile : compile tangledTree = .ok #[⟨.start, #[0, 2, 3]⟩, ⟨.fixed ['x'], #[]⟩,
      ⟨.fixed ['z'], #[0, 2, 3]⟩, ⟨.accept (), #[]⟩] := by decide +kernel
  obtain ⟨-, -, -, hgraph⟩ := compile_outcomes tangledTree
  exact ⟨_, hcompile, (hgraph _ hcompile).1, rfl⟩

end Tree

end RoutePattern
