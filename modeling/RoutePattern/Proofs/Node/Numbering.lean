import RoutePattern.Proofs.Graph.Advance
import RoutePattern.Proofs.Node.Outline

/-!
# The ids along a pattern

A node gets its id when its first character is read, so the ids of a sequence grow from node to
node. The empty literals of a group are the exception: they get theirs at the end of the group. But
such a literal is alone in its alternative, so on every way through the tree of a pattern the ids
still grow (`flows_of_parse`).
-/

namespace RoutePattern

namespace Shape

/-- What can be skipped does not matter for the ids. -/
theorem flows_orSkip_iff {rank : Nat → Nat} {shape : Shape} {optional : Bool} :
    (shape.orSkip optional).Flows rank ↔ shape.Flows rank := by
  cases optional with
  | false => exact Iff.rfl
  | true => exact and_iff_left trivial

end Shape

namespace Node

variable {rank : Nat → Nat} {skips : Bool}

/-- The ids of a shape belong to members of the node. -/
theorem mem_members_of_mem_ids {node : Node} {id : Nat} (h : id ∈ (node.shape skips).ids) :
    id ∈ node.members.map Node.id := by
  obtain ⟨leaf, hleaf, rfl⟩ := h
  rw [leaves_shape] at hleaf
  exact (filterMap_leaf?_sublist _).subset (List.mem_map_of_mem hleaf)

theorem exists_of_mem_ids {nodes : List Node} {id : Nat}
    (h : id ∈ (shapeOfSequence skips nodes).ids) :
    ∃ node ∈ nodes, id ∈ node.members.map Node.id := by
  obtain ⟨leaf, hleaf, rfl⟩ := h
  rw [leaves_shapeOfSequence, membersOfSequence_eq_flatMap] at hleaf
  have hmem := (filterMap_leaf?_sublist _).subset (List.mem_map_of_mem hleaf)
  rw [List.map_flatMap] at hmem
  exact List.mem_flatMap.1 hmem

/-- Every id of the first node is smaller than every id of the second one. -/
def Before (node later : Node) : Prop :=
  ∀ id ∈ node.members.map Node.id, ∀ other ∈ later.members.map Node.id, id < other

/-- Ids grow along a sequence if they do in each node and from each node to the later ones. -/
theorem flows_shapeOfSequence {nodes : List Node}
    (hnodes : ∀ node ∈ nodes, (node.shape skips).Flows fun id => id)
    (hbefore : nodes.Pairwise Before) : (shapeOfSequence skips nodes).Flows fun id => id := by
  induction nodes with
  | nil => trivial
  | cons node rest ih =>
    obtain ⟨hnode, hrest⟩ := List.forall_mem_cons.1 hnodes
    obtain ⟨hfirst, hothers⟩ := List.pairwise_cons.1 hbefore
    refine ⟨hnode, ih hrest hothers, fun id hid other hother => ?_⟩
    obtain ⟨later, hlater, hmem⟩ := exists_of_mem_ids hother
    exact hfirst later hlater id (mem_members_of_mem_ids hid) other hmem

/-- There is no way from one alternative to another, so each is looked at alone. -/
theorem flows_shapeOfAll_iff {alternatives : List (List Node)} :
    (shapeOfAll skips alternatives).Flows rank ↔
      ∀ alternative ∈ alternatives, (shapeOfSequence skips alternative).Flows rank := by
  induction alternatives with
  | nil => exact iff_of_true trivial nofun
  | cons alternative rest ih =>
    rw [shapeOfAll, Shape.Flows, ih, List.forall_mem_cons]

end Node

open Node

namespace Draft

/-- The ids of the sequence, which stands last node first, grow along its ways up to `lastId`. -/
structure Grows (lastId : Nat) (nodes : List Node) : Prop where
  le_lastId : ∀ id ∈ idsOf nodes, id ≤ lastId
  flows : ∀ node ∈ nodes, (node.shape true).Flows fun id => id
  before : nodes.Pairwise fun later node => node.Before later

theorem Grows.nil (lastId : Nat) : Grows lastId [] := ⟨nofun, nofun, .nil⟩

theorem Grows.mono {lastId last : Nat} {nodes : List Node} (h : Grows lastId nodes)
    (hle : lastId ≤ last) : Grows last nodes :=
  ⟨fun id hid => Nat.le_trans (h.le_lastId id hid) hle, h.flows, h.before⟩

/-- One more node, all whose ids are new. -/
theorem Grows.cons {lastId last : Nat} {nodes : List Node} (h : Grows lastId nodes) {node : Node}
    (hflows : (node.shape true).Flows fun id => id)
    (hids : ∀ id ∈ node.members.map Node.id, lastId < id ∧ id ≤ last) (hle : lastId ≤ last) :
    Grows last (node :: nodes) where
  le_lastId id hid := by
    rw [idsOf_cons, List.mem_append] at hid
    exact hid.elim (fun hid => (hids id hid).2) ((h.mono hle).le_lastId id)
  flows := List.forall_mem_cons.2 ⟨hflows, h.flows⟩
  before := by
    refine List.pairwise_cons.2 ⟨fun other hother id hid later hlater => ?_, h.before⟩
    have hmem : id ∈ idsOf nodes := by
      rw [idsOf, membersOfSequence_eq_flatMap, List.map_flatMap]
      exact List.mem_flatMap.2 ⟨other, hother, hid⟩
    exact Nat.lt_of_le_of_lt (h.le_lastId id hmem) (hids later hlater).1

/-- A character makes a literal with a new id, or belongs to the one before it. -/
theorem grows_addChar {draft : Draft} (h : Grows draft.lastId draft.nodes) (c : Char) :
    Grows (draft.addChar c).lastId (draft.addChar c).nodes := by
  unfold addChar
  split
  · next id text before heq =>
    rw [heq] at h
    -- The literal that goes on keeps its id.
    exact ⟨h.le_lastId, List.forall_mem_cons.2 ⟨trivial, (List.forall_mem_cons.1 h.flows).2⟩,
      List.pairwise_cons.2 (List.pairwise_cons.1 h.before)⟩
  · exact h.cons trivial (by simp [members, Node.id]) (Nat.le_succ _)

/-- An empty sequence is filled with a node with a new id. -/
theorem filled_grows {lastId : Nat} {nodes : List Node} (h : Grows lastId nodes) :
    lastId ≤ (filled lastId nodes).2 ∧
      (∀ id ∈ idsOf (filled lastId nodes).1, id ≤ (filled lastId nodes).2) ∧
      (shapeOfSequence true (filled lastId nodes).1).Flows fun id => id := by
  cases nodes with
  | nil =>
    refine ⟨Nat.le_succ _, by simp [filled, members, Node.id], ?_⟩
    exact flows_shapeOfSequence (List.forall_mem_singleton.2 trivial) (List.pairwise_singleton _ _)
  | cons node nodes =>
    refine ⟨Nat.le_refl _, fun id hid => h.le_lastId id ((idsOf_reverse _).mem_iff.1 hid), ?_⟩
    exact flows_shapeOfSequence (fun other hother => h.flows other (List.mem_reverse.1 hother))
      (List.pairwise_reverse.2 h.before)

/-- Filling the alternatives of a group leaves the ids of each growing. -/
theorem fillAll_grows {lastId : Nat} {alternatives : List (List Node)}
    (h : ∀ nodes ∈ alternatives, Grows lastId nodes) :
    lastId ≤ (fillAll lastId alternatives).2 ∧
      (∀ id ∈ idsOfAll (fillAll lastId alternatives).1, id ≤ (fillAll lastId alternatives).2) ∧
      ∀ nodes ∈ (fillAll lastId alternatives).1,
        (shapeOfSequence true nodes).Flows fun id => id := by
  induction alternatives generalizing lastId with
  | nil => exact ⟨Nat.le_refl _, nofun, nofun⟩
  | cons nodes rest ih =>
    obtain ⟨hnodes, hothers⟩ := List.forall_mem_cons.1 h
    obtain ⟨hle, hids, hflows⟩ := filled_grows hnodes
    obtain ⟨hlast, hall, hrest⟩ := ih fun other hother => (hothers other hother).mono hle
    refine ⟨Nat.le_trans hle hlast, fun id hid => ?_, List.forall_mem_cons.2 ⟨hflows, hrest⟩⟩
    rw [fillAll, idsOfAll_cons, List.mem_append] at hid
    exact hid.elim (fun hid => Nat.le_trans (hids id hid) hlast) (hall id)

mutual

/-- Each segment that is read adds nodes with greater ids. -/
theorem grows_addSegment : (segment : Segment) → {draft : Draft} →
    Grows draft.lastId draft.nodes →
    Grows (draft.addSegment segment).lastId (draft.addSegment segment).nodes
  | .char c, _, h => grows_addChar h c
  | .escape c, _, h => grows_addChar h c
  | .parameter _ _, draft, h =>
    h.cons (Shape.flows_orSkip_iff.2 trivial)
      (List.forall_mem_singleton.2 ⟨Nat.lt_succ_self _, Nat.le_refl _⟩) (Nat.le_succ draft.lastId)
  | .group first others optional, draft, h => by
    have hbody := @grows_addSequence first ⟨draft.lastId + 1, [], []⟩ (.nil _)
    have hbegin := (extends_addSequence first ⟨draft.lastId + 1, [], []⟩).lastId
    obtain ⟨hmore, hothers⟩ :=
      grows_addOthers others (addSequence ⟨draft.lastId + 1, [], []⟩ first).lastId
    obtain ⟨hlast, hids, hflows⟩ :=
      fillAll_grows (List.forall_mem_cons.2 ⟨hbody.mono hmore, hothers⟩)
    have hle := Nat.le_trans hbegin (Nat.le_trans hmore hlast)
    -- In a draft without nodes the group is all there is, and its ids are new.
    have hnew :=
      (extends_addSegment (.group first others optional) ⟨draft.lastId, [], []⟩).of_empty.2.1
    refine h.cons (Shape.flows_orSkip_iff.2 (flows_shapeOfAll_iff.2 hflows))
      (fun id hid => ⟨hnew id ?_, ?_⟩) (Nat.le_trans (Nat.le_succ _) hle)
    · rw [addSegment, idsOf_cons]
      exact List.mem_append_left _ hid
    · rw [map_id_members_group, List.mem_cons] at hid
      -- The id of the group itself is the first that it takes.
      rcases hid with rfl | hid
      · exact hle
      · exact hids id hid

theorem grows_addSequence : (segments : List Segment) → {draft : Draft} →
    Grows draft.lastId draft.nodes →
    Grows (draft.addSequence segments).lastId (draft.addSequence segments).nodes
  | [], _, h => h
  | segment :: rest, _, h => grows_addSequence rest (grows_addSegment segment h)

theorem grows_addOthers : (others : List (List Segment)) → (lastId : Nat) →
    lastId ≤ (addOthers lastId others).1 ∧
      ∀ nodes ∈ (addOthers lastId others).2, Grows (addOthers lastId others).1 nodes
  | [], _ => ⟨Nat.le_refl _, nofun⟩
  | alternative :: rest, lastId => by
    have hbody := @grows_addSequence alternative ⟨lastId + 1, [], []⟩ (.nil _)
    have hbegin := (extends_addSequence alternative ⟨lastId + 1, [], []⟩).lastId
    obtain ⟨hmore, hrest⟩ :=
      grows_addOthers rest (addSequence ⟨lastId + 1, [], []⟩ alternative).lastId
    refine ⟨?_, List.forall_mem_cons.2 ⟨hbody.mono hmore, hrest⟩⟩
    exact Nat.le_trans (Nat.le_succ _) (Nat.le_trans hbegin hmore)

end

end Draft

/-- On the ways through the tree of a pattern the ids grow. -/
theorem flows_of_parse {pattern : Text} {nodes : List Node} (h : parse pattern = .ok nodes) :
    (shapeOfSequence true nodes).Flows fun id => id := by
  obtain ⟨segments, hsegments⟩ := Segment.exists_derives (exists_parse_eq_ok_iff.1 ⟨nodes, h⟩).2
  have hread := readTree_of_parse h
  rw [readTree_of_derives hsegments] at hread
  obtain rfl := Except.ok.inj hread
  exact (Draft.filled_grows (Draft.grows_addSequence segments (Draft.Grows.nil 0))).2.2

end RoutePattern
