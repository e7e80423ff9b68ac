import RoutePattern.Graph.Compile
import RoutePattern.Proofs.Graph.Flow

/-!
# The edges of a tree without bypasses

Where the ids of a tree are different, each of them stands for the junction of its own node
(`map_find_ofNodes`). The edges that lead through these junctions from the start state to the end
state are those around the tree when nothing in it can be left out (`mem_outerLinks_iff`).
-/

namespace RoutePattern

namespace Node

mutual

/-- What a node is for an edge to it or from it. -/
def junction : Node → Junction
  | literal id _ => .state id
  | parameter id _ _ => .state id
  | group _ alternatives _ => .group (junctionsOfAll alternatives)
  | separator id => .state id

/-- The junctions of a sequence. -/
def junctionsOfSequence : List Node → List Junction
  | [] => []
  | node :: rest => node.junction :: junctionsOfSequence rest

/-- The junctions of the alternatives of a group. -/
def junctionsOfAll : List (List Node) → List (List Junction)
  | [] => []
  | alternative :: rest => junctionsOfSequence alternative :: junctionsOfAll rest

end

theorem junctionsOfSequence_eq_map (nodes : List Node) :
    junctionsOfSequence nodes = nodes.map junction := by
  induction nodes with
  | nil => rfl
  | cons node nodes ih => rw [junctionsOfSequence, ih, List.map_cons]

/-- The junctions of the alternatives are those of their nodes. -/
theorem junctionsOfAll_eq_map (alternatives : List (List Node)) :
    junctionsOfAll alternatives = alternatives.map (·.map junction) := by
  induction alternatives with
  | nil => rfl
  | cons alternative alternatives ih =>
    rw [junctionsOfAll, ih, junctionsOfSequence_eq_map, List.map_cons]

end Node

namespace Junctions

open Node

/-! ## The junction of an id -/

/-- The table has the ids of the nodes. -/
theorem mem_ofNodes_iff {nodes : List Node} {id : Nat} :
    id ∈ ofNodes nodes ↔ id ∈ nodes.map Node.id := by
  induction nodes with
  | nil => simp [ofNodes]
  | cons node nodes ih =>
    rw [ofNodes, List.map_cons, List.mem_cons, ← ih]
    split
    · next hcontains =>
      refine (or_iff_right_of_imp ?_).symm
      rintro rfl
      exact Std.TreeMap.contains_iff_mem.1 hcontains
    · rw [Std.TreeMap.mem_insert, Nat.compare_eq_eq, eq_comm]

/-- An id that no node carries is that of a state. -/
theorem find_of_notMem {nodes : List Node} {id : Nat} (h : id ∉ nodes.map Node.id) :
    (ofNodes nodes).find id = .state id := by
  have hnone : (ofNodes nodes)[id]? = none := by
    apply Std.TreeMap.getElem?_eq_none
    intro hmem
    exact h (mem_ofNodes_iff.1 hmem)
  rw [find, hnone, Option.getD_none]

/-- The first node with an id makes its junction from the table of the later ones. -/
theorem find_ofNodes_cons_self {node : Node} {later : List Node}
    (h : node.id ∉ later.map Node.id) :
    (ofNodes (node :: later)).find node.id = ofNode (ofNodes later) node := by
  have hcontains : (ofNodes later).contains node.id = false := by
    rw [Bool.eq_false_iff, ne_eq, Std.TreeMap.contains_iff_mem, mem_ofNodes_iff]
    exact h
  simp [find, ofNodes, hcontains]

/-- A node leaves the junctions of other ids as they are. -/
theorem find_ofNodes_cons_of_ne {node : Node} {later : List Node} {id : Nat} (h : node.id ≠ id) :
    (ofNodes (node :: later)).find id = (ofNodes later).find id := by
  rw [find, ofNodes]
  split
  · rfl
  · simp [find, Std.TreeMap.getElem?_insert, h]

theorem find_ofNodes_append {nodes later : List Node} {id : Nat} (h : id ∉ nodes.map Node.id) :
    (ofNodes (nodes ++ later)).find id = (ofNodes later).find id := by
  induction nodes with
  | nil => rfl
  | cons node nodes ih =>
    rw [List.map_cons, List.mem_cons, not_or] at h
    rw [List.cons_append, find_ofNodes_cons_of_ne (Ne.symm h.1), ih h.2]

/-- The id of a leaf is that of a state. -/
theorem find_of_leaf? {nodes : List Node} (hnodup : (nodes.map Node.id).Nodup) {node : Node}
    (hnode : node ∈ nodes) {leaf : Leaf} (hleaf : node.leaf? = some leaf) :
    (ofNodes nodes).find leaf.id = .state leaf.id := by
  induction nodes with
  | nil => simp at hnode
  | cons first nodes ih =>
    rw [List.map_cons, List.nodup_cons] at hnodup
    rw [id_eq_of_leaf? hleaf] at ih ⊢
    rcases List.mem_cons.1 hnode with rfl | hmem
    · rw [find_ofNodes_cons_self hnodup.1]
      cases node <;> first | rfl | simp [leaf?] at hleaf
    · have hne : first.id ≠ node.id := by
        intro heq
        exact hnodup.1 (heq ▸ List.mem_map_of_mem hmem)
      rw [find_ofNodes_cons_of_ne hne, ih hnodup.2 hmem]

/-- Ids of later nodes are not among those of earlier ones. -/
theorem nodup_later {nodes later : List Node} (h : ((nodes ++ later).map Node.id).Nodup) :
    (later.map Node.id).Nodup ∧ ∀ node ∈ later, node.id ∉ nodes.map Node.id := by
  rw [List.map_append, List.nodup_append] at h
  obtain ⟨-, hlater, hne⟩ := h
  refine ⟨hlater, ?_⟩
  intro node hnode hmem
  exact hne _ hmem _ (List.mem_map_of_mem hnode) rfl

mutual

/-- The id of a node leads to the junction of the node, whatever nodes come later. -/
theorem find_ofNodes_node {later : List Node} : {node : Node} →
    ((node.members ++ later).map Node.id).Nodup →
    (ofNodes (node.members ++ later)).find node.id = node.junction
  | .literal .., h => find_ofNodes_cons_self (List.nodup_cons.1 h).1
  | .parameter .., h => find_ofNodes_cons_self (List.nodup_cons.1 h).1
  | .group _ alternatives _, h => by
    obtain ⟨hnotMem, hnodup⟩ := List.nodup_cons.1 h
    refine (find_ofNodes_cons_self hnotMem).trans ?_
    rw [ofNode, junction, junctionsOfAll_eq_map]
    congr 1
    apply List.map_congr_left
    intro alternative halternative
    exact List.map_congr_left (find_ofNodes_alternatives hnodup alternative halternative)
  | .separator _, h => find_ofNodes_cons_self (List.nodup_cons.1 h).1

/-- So do the ids of a sequence. -/
theorem find_ofNodes_sequence {later : List Node} : {nodes : List Node} →
    ((membersOfSequence nodes ++ later).map Node.id).Nodup → ∀ node ∈ nodes,
    (ofNodes (membersOfSequence nodes ++ later)).find node.id = node.junction
  | first :: rest, h, node, hnode => by
    rw [membersOfSequence, List.append_assoc] at h ⊢
    obtain ⟨hrest, hne⟩ := nodup_later h
    rcases List.mem_cons.1 hnode with heq | hmem
    · rw [heq]
      exact find_ofNodes_node h
    · -- The node stands in the rest, and none of the first members has its id.
      rw [find_ofNodes_append (hne node (List.mem_append_left _ (mem_membersOfSequence hmem)))]
      exact find_ofNodes_sequence hrest node hmem

theorem find_ofNodes_alternatives {later : List Node} : {alternatives : List (List Node)} →
    ((membersOfAll alternatives ++ later).map Node.id).Nodup →
    ∀ alternative ∈ alternatives, ∀ node ∈ alternative,
    (ofNodes (membersOfAll alternatives ++ later)).find node.id = node.junction
  | first :: rest, h, alternative, halternative, node, hnode => by
    rw [membersOfAll, List.append_assoc] at h ⊢
    obtain ⟨hrest, hne⟩ := nodup_later h
    rcases List.mem_cons.1 halternative with heq | hmem
    · rw [heq] at hnode
      exact find_ofNodes_sequence h node hnode
    · rw [find_ofNodes_append (hne node (List.mem_append_left _ (mem_membersOfAll hmem hnode)))]
      exact find_ofNodes_alternatives hrest alternative hmem node hnode

end

end Junctions

namespace Junction

open Node

/-! ## Links as edges around a shape -/

mutual

/-- The states that a node is entered by are those of its shape without skips. -/
theorem mem_entries_iff {after : Set Nat} {state : Nat} : {node : Node} → node.Sound →
    (state ∈ node.junction.entries ↔ state ∈ (node.shape false).enter after)
  | .literal .., _ => List.mem_singleton
  | .parameter .., _ => List.mem_singleton
  | .group .., h => mem_entriesOfAll_iff h.2

theorem mem_entriesOfAll_iff {after : Set Nat} {state : Nat} : {alternatives : List (List Node)} →
    SoundAll alternatives → (state ∈ entriesOfAll (junctionsOfAll alternatives) ↔
      state ∈ (shapeOfAll false alternatives).enter after)
  | [], _ => by simp [junctionsOfAll, entriesOfAll, shapeOfAll, Shape.enter]
  | alternative :: rest, h => by
    rw [junctionsOfAll, entriesOfAll, List.mem_append, mem_entriesOfFirst_iff h.1.1 h.1.2,
      mem_entriesOfAll_iff h.2, shapeOfAll, Shape.enter, Set.mem_union]

theorem mem_entriesOfFirst_iff {after : Set Nat} {state : Nat} : {nodes : List Node} →
    nodes ≠ [] → SoundSequence nodes → (state ∈ entriesOfFirst (junctionsOfSequence nodes) ↔
      state ∈ (shapeOfSequence false nodes).enter after)
  | [], hne, _ => absurd rfl hne
  | _ :: _, _, h => mem_entries_iff h.1

end

theorem mem_links_state_iff {id : Nat} {target : Junction} {link : Nat × Nat} :
    link ∈ (state id).links target ↔
      link ∈ ({id} : Set Nat) ×ˢ {entry | entry ∈ target.entries} := by
  rw [links, List.mem_map]
  constructor
  · rintro ⟨entry, hentry, rfl⟩
    exact ⟨rfl, hentry⟩
  · rintro ⟨hfirst, hsecond⟩
    exact ⟨link.2, hsecond, Prod.ext (Eq.symm hfirst) rfl⟩

theorem linksOfLast_eq {sequence : List Junction} {target : Junction} (h : sequence ≠ []) :
    linksOfLast sequence target = (sequence.getLast h).links target := by
  induction sequence with
  | nil => exact absurd rfl h
  | cons first rest ih =>
    cases rest with
    | nil => rfl
    | cons second rest =>
      rw [linksOfLast, ih (by simp)]
      · rfl
      · nofun

mutual

/-- The links from a node to a junction are the edges out of its shape. -/
theorem mem_links_iff {target : Junction} {link : Nat × Nat} : {node : Node} → node.Sound →
    (link ∈ node.junction.links target ↔
      link ∈ (node.shape false).around ∅ {state | state ∈ target.entries})
  | .literal .., _ => by
    rw [shape, Shape.around_one, Set.empty_prod, Set.empty_union]
    exact mem_links_state_iff
  | .parameter .., _ => by
    rw [shape, Bool.false_and, Shape.orSkip_false, Shape.around_one, Set.empty_prod,
      Set.empty_union]
    exact mem_links_state_iff
  | .group .., h => mem_linksOfAll_iff h.2

theorem mem_linksOfAll_iff {target : Junction} {link : Nat × Nat} :
    {alternatives : List (List Node)} → SoundAll alternatives →
    (link ∈ linksOfAll (junctionsOfAll alternatives) target ↔
      link ∈ (shapeOfAll false alternatives).around ∅ {state | state ∈ target.entries})
  | [], _ => by simp [junctionsOfAll, linksOfAll, shapeOfAll, Shape.around_nothing]
  | alternative :: rest, h => by
    rw [junctionsOfAll, linksOfAll, List.mem_append, List.mem_append,
      mem_linksOfSequence_iff h.1.2, mem_linksOfAll_iff h.2, shapeOfAll, Shape.around_choice,
      Set.mem_union]

/-- The links inside a sequence and out of its last node are the edges around its shape. -/
theorem mem_linksOfSequence_iff {target : Junction} {link : Nat × Nat} : {nodes : List Node} →
    SoundSequence nodes →
    (link ∈ linksOfLast (junctionsOfSequence nodes) target ∨
        link ∈ linksInside (junctionsOfSequence nodes) ↔
      link ∈ (shapeOfSequence false nodes).around ∅ {state | state ∈ target.entries})
  | [], _ => by
    simp [junctionsOfSequence, linksOfLast, linksInside, shapeOfSequence, Shape.around_skip]
  | [last], h => by
    simp only [junctionsOfSequence, linksOfLast, linksInside, shapeOfSequence,
      Shape.around_join_first, Shape.around_skip, Shape.enter, mem_links_iff h.1]
    simp
  | first :: second :: rest, h => by
    have hentries : {state | state ∈ second.junction.entries} =
        (shapeOfSequence false (second :: rest)).enter {state | state ∈ target.entries} :=
      Set.ext fun _ => mem_entries_iff h.2.1
    have hrest : link ∈ linksOfLast (junctionsOfSequence (second :: rest)) target ∨
        link ∈ linksInside (junctionsOfSequence (second :: rest)) ↔ _ :=
      mem_linksOfSequence_iff h.2
    rw [shapeOfSequence, Shape.around_join_first, Set.mem_union, ← hrest, ← hentries,
      ← mem_links_iff h.1, junctionsOfSequence, junctionsOfSequence, linksOfLast, linksInside,
      List.mem_append]
    · exact or_left_comm
    · nofun

end

/-- The edges through a tree: into its first node, between its nodes, and out of its last one. -/
theorem outerLinks_eq {junctions : Junctions} {last : Nat} {node : Node} {rest : List Node}
    (hfirst : junctions.find 0 = .state 0) (hlast : junctions.find last = .state last)
    (hnodes : ∀ other ∈ node :: rest, junctions.find other.id = other.junction) :
    outerLinks junctions last (node :: rest) =
      (state 0).links node.junction ++ linksInside (junctionsOfSequence (node :: rest)) ++
        linksOfLast (junctionsOfSequence (node :: rest)) (.state last) := by
  have hinner : ((node :: rest).map fun node => junctions.find node.id) =
      junctionsOfSequence (node :: rest) := by
    rw [junctionsOfSequence_eq_map]
    exact List.map_congr_left hnodes
  have hlinks : (junctions.find ((node :: rest).getLast (by simp)).id).links (.state last) =
      linksOfLast (junctionsOfSequence (node :: rest)) (.state last) := by
    rw [linksOfLast_eq (by simp [junctionsOfSequence])]
    simp only [← hinner, List.getLast_map]
  unfold outerLinks
  simp only [hfirst, hlast, hlinks, hinner, hnodes node List.mem_cons_self]

/-- The edges from the start state through a tree to the end state. -/
theorem mem_outerLinks_iff {junctions : Junctions} {last : Nat} {nodes : List Node}
    (hsound : SoundSequence nodes) (hne : nodes ≠ []) (hfirst : junctions.find 0 = .state 0)
    (hlast : junctions.find last = .state last)
    (hnodes : ∀ node ∈ nodes, junctions.find node.id = node.junction) {link : Nat × Nat} :
    link ∈ outerLinks junctions last nodes ↔
      link ∈ (shapeOfSequence false nodes).around {0} {last} := by
  have hend : {state | state ∈ (Junction.state last).entries} = {last} := by
    ext
    simp [entries]
  have hinside : link ∈ linksOfLast (junctionsOfSequence nodes) (.state last) ∨
      link ∈ linksInside (junctionsOfSequence nodes) ↔
      link ∈ (shapeOfSequence false nodes).around ∅ {last} :=
    hend ▸ mem_linksOfSequence_iff hsound
  cases nodes with
  | nil => exact absurd rfl hne
  | cons node rest =>
    have hentries : {entry | entry ∈ node.junction.entries} =
        (shapeOfSequence false (node :: rest)).enter {last} :=
      Set.ext fun _ => mem_entries_iff hsound.1
    rw [outerLinks_eq hfirst hlast hnodes, List.mem_append, List.mem_append,
      mem_links_state_iff, hentries, Shape.around_eq_enter, Set.mem_union, ← hinside, or_assoc,
      or_comm (b := link ∈ linksOfLast _ _)]

end Junction

end RoutePattern
