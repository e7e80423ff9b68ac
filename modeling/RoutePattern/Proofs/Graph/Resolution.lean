import RoutePattern.Proofs.Distinct
import RoutePattern.Proofs.Graph.Junction

/-!
# Ids that several nodes carry

The ids of a tree need not be different. An id then stands for the last node that carries it, and a
group may be led on to other nodes than its own: its alternatives name ids, and these are looked up
again. This comes to an end, because the nodes inside a group come behind it (`Unfolded`):
`find_ofNodes` says that the junction of an id is that of its last node, with the junctions of the
same table inside. All states of a junction are those of nodes that are no groups (`within_find`).
-/

namespace RoutePattern

namespace Node

/-- Every node that stands directly in an alternative of a group is listed behind the group. -/
def Unfolded : List Node → Prop
  | [] => True
  | node :: later =>
    (∀ alternatives, node.alternatives? = some alternatives → ∀ alternative ∈ alternatives,
      ∀ inner ∈ alternative, inner.id ∈ later.map Node.id) ∧ Unfolded later

mutual

/-- What stands inside a node is listed behind it, so its members are unfolded. -/
theorem unfolded_members {later : List Node} (h : Unfolded later) :
    (node : Node) → Unfolded (node.members ++ later)
  | literal .. => ⟨nofun, h⟩
  | parameter .. => ⟨nofun, h⟩
  | group id alternatives optional => by
    refine ⟨?_, unfolded_membersOfAll h alternatives⟩
    intro listed hlisted alternative halternative inner hinner
    obtain rfl := Option.some.inj hlisted
    exact List.mem_map_of_mem (List.mem_append_left _ (mem_membersOfAll halternative hinner))
  | separator _ => ⟨nofun, h⟩

theorem unfolded_membersOfSequence {later : List Node} (h : Unfolded later) :
    (nodes : List Node) → Unfolded (membersOfSequence nodes ++ later)
  | [] => h
  | node :: rest => by
    rw [membersOfSequence, List.append_assoc]
    exact unfolded_members (unfolded_membersOfSequence h rest) node

theorem unfolded_membersOfAll {later : List Node} (h : Unfolded later) :
    (alternatives : List (List Node)) → Unfolded (membersOfAll alternatives ++ later)
  | [] => h
  | alternative :: rest => by
    rw [membersOfAll, List.append_assoc]
    exact unfolded_membersOfSequence (unfolded_membersOfAll h rest) alternative

end

/-- The nodes of a tree in reading order are unfolded. -/
theorem unfolded_tree (nodes : List Node) : Unfolded (membersOfSequence nodes) := by
  have hnil : Unfolded [] := trivial
  have h := unfolded_membersOfSequence hnil nodes
  rwa [List.append_nil] at h

end Node

open Node

namespace Junctions

/-- A node listed before others does not change what an id of theirs stands for. -/
theorem find_ofNodes_cons_of_mem {node : Node} {later : List Node} {id : Nat}
    (h : id ∈ later.map Node.id) : (ofNodes (node :: later)).find id = (ofNodes later).find id := by
  by_cases hid : node.id = id
  · have hcontains : (ofNodes later).contains node.id = true := by
      rw [Std.TreeMap.contains_iff_mem, mem_ofNodes_iff, hid]
      exact h
    rw [ofNodes, if_pos hcontains]
  · exact find_ofNodes_cons_of_ne hid

/-- The junction of a node hangs on the ids inside the node only. -/
theorem ofNode_congr {table other : Junctions} {node : Node}
    (h : ∀ alternatives, node.alternatives? = some alternatives → ∀ alternative ∈ alternatives,
      ∀ inner ∈ alternative, table.find inner.id = other.find inner.id) :
    ofNode table node = ofNode other node := by
  cases node with
  | group id alternatives optional =>
    rw [ofNode, ofNode]
    congr 1
    refine List.map_congr_left fun alternative halternative => ?_
    refine List.map_congr_left fun inner hinner => ?_
    exact h alternatives rfl alternative halternative inner hinner
  | literal id text => rfl
  | parameter id name optional => rfl
  | separator id => rfl

/-- The ids inside a group are listed with it. -/
theorem ids_inside_mem {nodes : List Node} (h : Unfolded nodes) {node : Node} (hnode : node ∈ nodes)
    {alternatives : List (List Node)} (hgroup : node.alternatives? = some alternatives)
    {alternative : List Node} (halternative : alternative ∈ alternatives) {inner : Node}
    (hinner : inner ∈ alternative) : inner.id ∈ nodes.map Node.id := by
  induction nodes with
  | nil => simp at hnode
  | cons first later ih =>
    rw [List.map_cons, List.mem_cons]
    rcases List.mem_cons.1 hnode with rfl | hmem
    · exact .inr (h.1 alternatives hgroup alternative halternative inner hinner)
    · exact .inr (ih h.2 hmem)

/-- What an id stands for: the last node that carries it, led on by the same table; or a state, if
no node carries the id. -/
theorem find_ofNodes {nodes : List Node} (h : Unfolded nodes) (id : Nat) :
    (ofNodes nodes).find id =
      ((lastWith? Node.id nodes id).map (ofNode (ofNodes nodes))).getD (.state id) := by
  induction nodes with
  | nil => rfl
  | cons node later ih =>
    have hinside {inner : Node} (hinner : inner ∈ node :: later) :
        ofNode (ofNodes (node :: later)) inner = ofNode (ofNodes later) inner := by
      refine ofNode_congr fun alternatives hgroup alternative halternative member hmember => ?_
      refine find_ofNodes_cons_of_mem ?_
      rcases List.mem_cons.1 hinner with rfl | hmem
      · exact h.1 alternatives hgroup alternative halternative member hmember
      · exact ids_inside_mem h.2 hmem hgroup halternative hmember
    -- A later node with the id comes before the first one; only if there is none does the first one
    -- count.
    rw [lastWith?_cons]
    cases hlast : lastWith? Node.id later id with
    | some last =>
      obtain ⟨hmem, rfl⟩ := mem_of_lastWith? hlast
      rw [find_ofNodes_cons_of_mem (List.mem_map_of_mem hmem), ih h.2, hlast]
      simp [hinside (List.mem_cons_of_mem _ hmem)]
    | none =>
      have hnotMem := lastWith?_eq_none_iff.1 hlast
      by_cases hid : node.id = id
      · subst hid
        rw [find_ofNodes_cons_self hnotMem]
        simp [hinside List.mem_cons_self]
      · rw [find_ofNodes_cons_of_ne hid, find_of_notMem hnotMem]
        simp [hid]

end Junctions

/-! ## The states of a junction -/

namespace Junction

mutual

/-- The states of the junction are among `states`. -/
def Within (states : Set Nat) : Junction → Prop
  | .state entry => entry ∈ states
  | .group alternatives => WithinAll states alternatives

/-- The states of the alternatives are among `states`. -/
def WithinAll (states : Set Nat) : List (List Junction) → Prop
  | [] => True
  | alternative :: rest => WithinSequence states alternative ∧ WithinAll states rest

/-- The states of a sequence are among `states`. -/
def WithinSequence (states : Set Nat) : List Junction → Prop
  | [] => True
  | first :: rest => first.Within states ∧ WithinSequence states rest

end

variable {states sources targets : Set Nat}

theorem withinSequence_iff {sequence : List Junction} :
    WithinSequence states sequence ↔ ∀ junction ∈ sequence, junction.Within states := by
  induction sequence with
  | nil => simp [WithinSequence]
  | cons first rest ih => rw [WithinSequence, ih, List.forall_mem_cons]

theorem withinAll_iff {alternatives : List (List Junction)} : WithinAll states alternatives ↔
    ∀ alternative ∈ alternatives, ∀ junction ∈ alternative, junction.Within states := by
  induction alternatives with
  | nil => simp [WithinAll]
  | cons alternative rest ih => rw [WithinAll, ih, withinSequence_iff, List.forall_mem_cons]

mutual

/-- A junction is entered at its states. -/
theorem mem_of_mem_entries {entry : Nat} : {junction : Junction} → junction.Within states →
    entry ∈ junction.entries → entry ∈ states
  | .state _, h, hentry => List.mem_singleton.1 hentry ▸ h
  | .group _, h, hentry => mem_of_mem_entriesOfAll h hentry

theorem mem_of_mem_entriesOfAll {entry : Nat} : {alternatives : List (List Junction)} →
    WithinAll states alternatives → entry ∈ entriesOfAll alternatives → entry ∈ states
  | _ :: _, h, hentry =>
    (List.mem_append.1 hentry).elim (mem_of_mem_entriesOfFirst h.1) (mem_of_mem_entriesOfAll h.2)

theorem mem_of_mem_entriesOfFirst {entry : Nat} : {sequence : List Junction} →
    WithinSequence states sequence → entry ∈ entriesOfFirst sequence → entry ∈ states
  | _ :: _, h, hentry => mem_of_mem_entries h.1 hentry

end

mutual

/-- The links from a junction leave its states, and lead to other states of it or to where the
target is entered. -/
theorem mem_prod_of_mem_links {target : Junction} {link : Nat × Nat}
    (hsub : sources ⊆ targets) (htarget : ∀ entry ∈ target.entries, entry ∈ targets) :
    {source : Junction} → source.Within sources → link ∈ source.links target →
    link ∈ sources ×ˢ targets
  | .state _, h, hlink => by
    obtain ⟨entry, hentry, rfl⟩ := List.mem_map.1 hlink
    exact ⟨h, htarget entry hentry⟩
  | .group _, h, hlink => mem_prod_of_mem_linksOfAll hsub htarget h hlink

theorem mem_prod_of_mem_linksOfAll {target : Junction} {link : Nat × Nat}
    (hsub : sources ⊆ targets) (htarget : ∀ entry ∈ target.entries, entry ∈ targets) :
    {alternatives : List (List Junction)} → WithinAll sources alternatives →
    link ∈ linksOfAll alternatives target → link ∈ sources ×ˢ targets
  | _ :: _, h, hlink => by
    rw [linksOfAll, List.mem_append, List.mem_append] at hlink
    rcases hlink with (hlink | hlink) | hlink
    · exact mem_prod_of_mem_linksOfLast hsub htarget h.1 hlink
    · exact mem_prod_of_mem_linksInside hsub h.1 hlink
    · exact mem_prod_of_mem_linksOfAll hsub htarget h.2 hlink

theorem mem_prod_of_mem_linksOfLast {target : Junction} {link : Nat × Nat}
    (hsub : sources ⊆ targets) (htarget : ∀ entry ∈ target.entries, entry ∈ targets) :
    {sequence : List Junction} → WithinSequence sources sequence →
    link ∈ linksOfLast sequence target → link ∈ sources ×ˢ targets
  | [_], h, hlink => mem_prod_of_mem_links hsub htarget h.1 hlink
  | _ :: second :: rest, h, hlink => by
    rw [linksOfLast] at hlink
    · exact mem_prod_of_mem_linksOfLast hsub htarget h.2 hlink
    · nofun

/-- The links inside a sequence stay among its states. -/
theorem mem_prod_of_mem_linksInside {link : Nat × Nat} (hsub : sources ⊆ targets) :
    {sequence : List Junction} → WithinSequence sources sequence → link ∈ linksInside sequence →
    link ∈ sources ×ˢ targets
  | _ :: second :: _, h, hlink => by
    rw [linksInside, List.mem_append] at hlink
    rcases hlink with hlink | hlink
    · exact mem_prod_of_mem_links hsub
        (fun entry hentry => hsub (mem_of_mem_entries h.2.1 hentry)) h.1 hlink
    · exact mem_prod_of_mem_linksInside hsub h.2 hlink

end

end Junction

/-- The states of an id's junction are those of nodes that are no groups. -/
theorem Junctions.within_find {states : Set Nat} {nodes : List Node} (h : Unfolded nodes)
    (hstates : ∀ node ∈ nodes, node.alternatives? = none → node.id ∈ states) {id : Nat}
    (hid : id ∈ nodes.map Node.id) : ((ofNodes nodes).find id).Within states := by
  induction nodes generalizing id with
  | nil => simp at hid
  | cons node later ih =>
    obtain ⟨hnode, hlater⟩ := List.forall_mem_cons.1 hstates
    by_cases hmem : id ∈ later.map Node.id
    · rw [find_ofNodes_cons_of_mem hmem]
      exact ih h.2 hlater hmem
    · obtain rfl : id = node.id := (List.mem_cons.1 hid).resolve_right hmem
      rw [find_ofNodes_cons_self hmem]
      cases node with
      | group id alternatives optional =>
        rw [ofNode, Junction.Within, Junction.withinAll_iff]
        intro sequence hsequence junction hjunction
        obtain ⟨alternative, halternative, rfl⟩ := List.mem_map.1 hsequence
        obtain ⟨inner, hinner, rfl⟩ := List.mem_map.1 hjunction
        exact ih h.2 hlater (h.1 alternatives rfl alternative halternative inner hinner)
      | literal id text => exact hnode rfl
      | parameter id name optional => exact hnode rfl
      | separator id => exact hnode rfl

end RoutePattern
