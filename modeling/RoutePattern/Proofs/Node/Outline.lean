import RoutePattern.Proofs.Node.Reading

/-!
# The tree that a pattern is read as

`Segment.outline` is the tree that a derivation stands for, without its ids, and is read off the
derivation from its end: a character joins the literal that it stands before, and an alternative
without segments is one empty literal. A pattern is read as the tree of its greedy derivation
(`unnumbered_of_readTree`).

Ids are given out in the order of reading, so the id of a group is smaller than every id inside it
(`groupsLead_of_readTree`).
-/

namespace RoutePattern

/-! ## Trees without ids -/

namespace Node

mutual

/-- The node with 0 for every id. -/
def unnumbered : Node → Node
  | literal _ text => literal 0 text
  | parameter _ name optional => parameter 0 name optional
  | group _ alternatives optional => group 0 (unnumberedAll alternatives) optional
  | separator _ => separator 0

/-- The nodes of a sequence with 0 for every id. -/
def unnumberedSequence : List Node → List Node
  | [] => []
  | node :: rest => node.unnumbered :: unnumberedSequence rest

/-- The alternatives of a group with 0 for every id. -/
def unnumberedAll : List (List Node) → List (List Node)
  | [] => []
  | alternative :: rest => unnumberedSequence alternative :: unnumberedAll rest

end

theorem unnumberedSequence_eq_map (nodes : List Node) :
    unnumberedSequence nodes = nodes.map unnumbered := by
  induction nodes with
  | nil => rfl
  | cons node nodes ih => rw [unnumberedSequence, ih, List.map_cons]

theorem unnumberedSequence_reverse (nodes : List Node) :
    unnumberedSequence nodes.reverse = (unnumberedSequence nodes).reverse := by
  rw [unnumberedSequence_eq_map, unnumberedSequence_eq_map, List.map_reverse]

end Node

open Node

/-! ## The tree of a derivation -/

namespace Segment

/-- A character before the nodes of what follows it. -/
def joinChar (c : Char) : List Node → List Node
  | .literal _ text :: rest => .literal 0 (c :: text) :: rest
  | nodes => .literal 0 [c] :: nodes

/-- A sequence without nodes is one empty literal. -/
def orEmptyLiteral : List Node → List Node
  | [] => [.literal 0 []]
  | nodes => nodes

mutual

/-- The node of a segment before the nodes of what follows it. -/
def outlineBefore (following : List Node) : Segment → List Node
  | char c => joinChar c following
  | escape c => joinChar c following
  | parameter name optional => .parameter 0 name optional :: following
  | group first others optional =>
    .group 0 (orEmptyLiteral (outlineSequence first) :: outlineAll others) optional :: following

/-- The nodes of a sequence of segments, all with id 0. -/
def outlineSequence : List Segment → List Node
  | [] => []
  | segment :: rest => segment.outlineBefore (outlineSequence rest)

/-- The nodes of the alternatives behind the first one. -/
def outlineAll : List (List Segment) → List (List Node)
  | [] => []
  | alternative :: rest => orEmptyLiteral (outlineSequence alternative) :: outlineAll rest

end

/-- The tree that a derivation of a pattern stands for, all ids being 0. -/
def outline (segments : List Segment) : List Node := orEmptyLiteral (outlineSequence segments)

end Segment

open Segment

namespace Draft

/-- Nodes read so far, last node first, before the nodes of what follows. -/
def followedBy : List Node → List Node → List Node
  | .literal _ text :: before, .literal _ more :: rest =>
    before.reverse ++ .literal 0 (text ++ more) :: rest
  | before, following => before.reverse ++ following

/-- With nothing behind them, the nodes read so far are put in reading order. -/
theorem followedBy_nil (before : List Node) : followedBy before [] = before.reverse := by
  rcases before with _ | ⟨_ | _ | _ | _, before⟩ <;> simp [followedBy]

theorem nil_followedBy (following : List Node) : followedBy [] following = following := by
  simp [followedBy]

/-- A character has the same effect behind what is read and before what follows. -/
theorem followedBy_addChar (draft : Draft) (c : Char) (following : List Node) :
    followedBy (unnumberedSequence (draft.addChar c).nodes) following =
      followedBy (unnumberedSequence draft.nodes) (joinChar c following) := by
  obtain ⟨lastId, nodes, groups⟩ := draft
  rcases nodes with _ | ⟨_ | _ | _ | _, before⟩
  all_goals
    rcases following with _ | ⟨_ | _ | _ | _, rest⟩ <;>
      simp [addChar, unnumberedSequence, unnumbered, joinChar, followedBy]

/-- A sequence that is filled is the one read, or an empty literal. -/
theorem unnumberedSequence_filled (lastId : Nat) (nodes : List Node) :
    unnumberedSequence (filled lastId nodes).1 =
      orEmptyLiteral (unnumberedSequence nodes).reverse := by
  rw [← unnumberedSequence_reverse]
  cases nodes with
  | nil => rfl
  | cons node nodes =>
    have hne : unnumberedSequence (node :: nodes).reverse ≠ [] := by
      simp [unnumberedSequence_eq_map]
    rw [filled, orEmptyLiteral]
    · exact hne
    · exact List.cons_ne_nil _ _

theorem unnumberedAll_fillAll (lastId : Nat) (alternatives : List (List Node)) :
    unnumberedAll (fillAll lastId alternatives).1 = alternatives.map fun nodes =>
      orEmptyLiteral (unnumberedSequence nodes).reverse := by
  induction alternatives generalizing lastId with
  | nil => rfl
  | cons nodes rest ih =>
    rw [fillAll, unnumberedAll, unnumberedSequence_filled, ih, List.map_cons]

mutual

/-- A segment goes behind what is read and before what follows with the same result. -/
theorem followedBy_addSegment : (segment : Segment) → (draft : Draft) → (following : List Node) →
    followedBy (unnumberedSequence (draft.addSegment segment).nodes) following =
      followedBy (unnumberedSequence draft.nodes) (segment.outlineBefore following)
  | .char c, draft, following => followedBy_addChar draft c following
  | .escape c, draft, following => followedBy_addChar draft c following
  | .parameter name optional, draft, following => by
    simp [addSegment, addParameter, outlineBefore, unnumberedSequence, unnumbered, followedBy]
  | .group first others optional, draft, following => by
    have hfirst := followedBy_addSequence first ⟨draft.lastId + 1, [], []⟩
    rw [unnumberedSequence, nil_followedBy] at hfirst
    simp [addSegment, outlineBefore, unnumberedSequence, unnumbered, followedBy,
      unnumberedAll_fillAll, hfirst, map_addOthers others]

/-- The nodes read are those of the outline behind what was there. -/
theorem followedBy_addSequence : (segments : List Segment) → (draft : Draft) →
    (unnumberedSequence (draft.addSequence segments).nodes).reverse =
      followedBy (unnumberedSequence draft.nodes) (outlineSequence segments)
  | [], _ => (followedBy_nil _).symm
  | segment :: rest, draft => by
    rw [addSequence, followedBy_addSequence rest, followedBy_addSegment segment, outlineSequence]

theorem map_addOthers : (others : List (List Segment)) → (lastId : Nat) →
    ((addOthers lastId others).2.map fun nodes =>
      orEmptyLiteral (unnumberedSequence nodes).reverse) = outlineAll others
  | [], _ => rfl
  | alternative :: rest, lastId => by
    have hbody := followedBy_addSequence alternative ⟨lastId + 1, [], []⟩
    rw [unnumberedSequence, nil_followedBy] at hbody
    rw [addOthers, outlineAll, List.map_cons, hbody, map_addOthers rest]

end

/-- The tree that the segments make is the one that they stand for. -/
theorem unnumberedSequence_addSequence (segments : List Segment) :
    unnumberedSequence (filled (empty.addSequence segments).lastId
      (empty.addSequence segments).nodes).1 = outline segments := by
  have htree := followedBy_addSequence segments empty
  rw [show empty.nodes = [] from rfl, unnumberedSequence, nil_followedBy] at htree
  rw [unnumberedSequence_filled, htree, outline]

end Draft

/-- The tree of a greedy derivation, as it is read. -/
theorem unnumbered_of_readTree {segments : List Segment} {pattern : Text} {nodes : List Node}
    (h : Derives segments pattern) (hread : readTree pattern = .ok nodes) :
    unnumberedSequence nodes = outline segments := by
  rw [readTree_of_derives h] at hread
  obtain rfl := Except.ok.inj hread
  exact Draft.unnumberedSequence_addSequence segments

/-! ## The ids of groups -/

namespace Node

/-- The id of every group is smaller than the ids inside it. -/
def GroupsLead (nodes : List Node) : Prop :=
  ∀ id alternatives optional, group id alternatives optional ∈ membersOfSequence nodes →
    ∀ inner ∈ idsOfAll alternatives, id < inner

/-- Whether the ids of groups lead can be seen node by node. -/
theorem groupsLead_iff {nodes : List Node} : GroupsLead nodes ↔
    ∀ node ∈ nodes, GroupsLead [node] := by
  simp only [GroupsLead, membersOfSequence_eq_flatMap, List.mem_flatMap, List.mem_singleton,
    exists_eq_left]
  constructor
  · intro h node hnode id alternatives optional hmem
    exact h id alternatives optional ⟨node, hnode, hmem⟩
  · rintro h id alternatives optional ⟨node, hnode, hmem⟩
    exact h node hnode id alternatives optional hmem

theorem groupsLead_literal (id : Nat) (text : Text) : GroupsLead [literal id text] := by
  simp [GroupsLead, membersOfSequence, members]

theorem groupsLead_parameter (id : Nat) (name : Text) (optional : Bool) :
    GroupsLead [parameter id name optional] := by
  simp [GroupsLead, membersOfSequence, members]

/-- The id of a group leads if it is smaller than those inside and they lead there. -/
theorem groupsLead_group {id : Nat} {alternatives : List (List Node)} {optional : Bool}
    (h : ∀ alternative ∈ alternatives, GroupsLead alternative)
    (hid : ∀ inner ∈ idsOfAll alternatives, id < inner) :
    GroupsLead [group id alternatives optional] := by
  intro other inside mark hmem
  simp only [membersOfSequence, List.append_nil, members, List.mem_cons, group.injEq] at hmem
  rcases hmem with ⟨rfl, rfl, rfl⟩ | hmem
  · exact hid
  · rw [membersOfAll_eq_flatMap, List.mem_flatMap] at hmem
    obtain ⟨alternative, halternative, hmem⟩ := hmem
    exact h alternative halternative other inside mark hmem

/-- The ids of the alternatives are those of each. -/
theorem mem_idsOfAll_iff {alternatives : List (List Node)} {id : Nat} :
    id ∈ idsOfAll alternatives ↔ ∃ alternative ∈ alternatives, id ∈ idsOf alternative := by
  induction alternatives with
  | nil => simp
  | cons alternative rest ih => simp [ih]

end Node

namespace Draft

/-- A draft with more in it: new nodes have new ids, and in groups these ascend inwards. -/
structure Extends (old new : Draft) : Prop where
  lastId : old.lastId ≤ new.lastId
  ids : ∀ id ∈ idsOf new.nodes, id ∈ idsOf old.nodes ∨ old.lastId < id
  lead : GroupsLead old.nodes → GroupsLead new.nodes

theorem Extends.refl (draft : Draft) : draft.Extends draft :=
  ⟨Nat.le_refl _, fun _ => .inl, id⟩

theorem Extends.trans {old middle new : Draft} (h : old.Extends middle)
    (hnew : middle.Extends new) : old.Extends new where
  lastId := Nat.le_trans h.lastId hnew.lastId
  ids id hid := by
    rcases hnew.ids id hid with hid | hid
    · exact h.ids id hid
    · exact .inr (Nat.lt_of_le_of_lt h.lastId hid)
  lead hlead := hnew.lead (h.lead hlead)

/-- One more node, all whose ids are new. -/
theorem extends_cons {draft : Draft} {lastId : Nat} {node : Node}
    (hlast : draft.lastId ≤ lastId) (hids : ∀ id ∈ node.members.map Node.id, draft.lastId < id)
    (hlead : GroupsLead [node]) :
    draft.Extends ⟨lastId, node :: draft.nodes, draft.groups⟩ where
  lastId := hlast
  ids id hid := by
    rw [idsOf_cons, List.mem_append] at hid
    exact hid.symm.imp_right (hids id)
  lead h := groupsLead_iff.2 (List.forall_mem_cons.2 ⟨hlead, groupsLead_iff.1 h⟩)

theorem extends_addChar (draft : Draft) (c : Char) : draft.Extends (draft.addChar c) := by
  unfold addChar
  split
  · -- A literal that goes on keeps its id.
    next id text before heq =>
    refine ⟨Nat.le_refl _, fun other hother => .inl (heq ▸ hother), fun h => ?_⟩
    rw [heq, groupsLead_iff, List.forall_mem_cons] at h
    exact groupsLead_iff.2 (List.forall_mem_cons.2 ⟨groupsLead_literal _ _, h.2⟩)
  · exact extends_cons (Nat.le_succ _) (by simp [members, Node.id]) (groupsLead_literal _ _)

/-- A sequence that is filled holds the same nodes, or an empty literal with a new id. -/
theorem filled_bounds {bound lastId : Nat} {nodes : List Node} (hle : bound ≤ lastId)
    (hids : ∀ id ∈ idsOf nodes, bound < id) (hlead : GroupsLead nodes) :
    bound ≤ (filled lastId nodes).2 ∧ (∀ id ∈ idsOf (filled lastId nodes).1, bound < id) ∧
      GroupsLead (filled lastId nodes).1 := by
  cases nodes with
  | nil =>
    exact ⟨Nat.le_succ_of_le hle,
      by simpa [filled, members, Node.id] using Nat.lt_succ_of_le hle, groupsLead_literal _ _⟩
  | cons node nodes =>
    refine ⟨hle, fun id hid => hids id ((idsOf_reverse _).mem_iff.1 hid), groupsLead_iff.2 ?_⟩
    intro other hother
    exact groupsLead_iff.1 hlead other (List.mem_reverse.1 hother)

theorem fillAll_bounds {bound lastId : Nat} {alternatives : List (List Node)}
    (hle : bound ≤ lastId) (h : ∀ nodes ∈ alternatives,
      (∀ id ∈ idsOf nodes, bound < id) ∧ GroupsLead nodes) :
    bound ≤ (fillAll lastId alternatives).2 ∧
      ∀ nodes ∈ (fillAll lastId alternatives).1,
        (∀ id ∈ idsOf nodes, bound < id) ∧ GroupsLead nodes := by
  induction alternatives generalizing lastId with
  | nil => exact ⟨hle, by simp [fillAll]⟩
  | cons nodes rest ih =>
    rw [List.forall_mem_cons] at h
    obtain ⟨hfirst, hids, hlead⟩ := filled_bounds hle h.1.1 h.1.2
    obtain ⟨hlast, hrest⟩ := ih hfirst h.2
    exact ⟨hlast, List.forall_mem_cons.2 ⟨⟨hids, hlead⟩, hrest⟩⟩

/-- What is read into an empty sequence has new ids only. -/
theorem Extends.of_empty {lastId : Nat} {draft : Draft}
    (h : (Draft.mk lastId [] []).Extends draft) :
    lastId ≤ draft.lastId ∧ (∀ id ∈ idsOf draft.nodes, lastId < id) ∧ GroupsLead draft.nodes := by
  refine ⟨h.lastId, fun id hid => ?_, h.lead (by simp [GroupsLead, membersOfSequence])⟩
  exact (h.ids id hid).resolve_left (by simp)

mutual

/-- Reading a segment adds nodes with new ids, those of groups before those inside. -/
theorem extends_addSegment : (segment : Segment) → (draft : Draft) →
    draft.Extends (draft.addSegment segment)
  | .char c, draft => extends_addChar draft c
  | .escape c, draft => extends_addChar draft c
  | .parameter name optional, draft =>
    extends_cons (Nat.le_succ _) (by simp [members, Node.id]) (groupsLead_parameter _ _ _)
  | .group first others optional, draft => by
    obtain ⟨hbody, hids, hlead⟩ :=
      (extends_addSequence first ⟨draft.lastId + 1, [], []⟩).of_empty
    obtain ⟨hmore, hothers⟩ := addOthers_bounds others hbody
    obtain ⟨hlast, hall⟩ := fillAll_bounds hmore (List.forall_mem_cons.2 ⟨⟨hids, hlead⟩, hothers⟩)
    have hinner {inner : Nat} (h : draft.lastId + 1 < inner) : draft.lastId < inner := by omega
    have hnew : ∀ inner ∈ idsOfAll (fillAll (addOthers (addSequence ⟨draft.lastId + 1, [], []⟩
          first).lastId others).1 ((addSequence ⟨draft.lastId + 1, [], []⟩ first).nodes ::
            (addOthers (addSequence ⟨draft.lastId + 1, [], []⟩ first).lastId others).2)).1,
        draft.lastId + 1 < inner := by
      intro inner hmem
      obtain ⟨alternative, halternative, hmem⟩ := mem_idsOfAll_iff.1 hmem
      exact (hall alternative halternative).1 inner hmem
    refine extends_cons (Nat.le_trans (Nat.le_succ _) hlast) ?_
      (groupsLead_group (fun alternative h => (hall alternative h).2) hnew)
    rw [map_id_members_group, List.forall_mem_cons]
    exact ⟨Nat.lt_succ_self _, fun inner hmem => hinner (hnew inner hmem)⟩

theorem extends_addSequence : (segments : List Segment) → (draft : Draft) →
    draft.Extends (draft.addSequence segments)
  | [], draft => .refl draft
  | segment :: rest, draft =>
    (extends_addSegment segment draft).trans (extends_addSequence rest (draft.addSegment segment))

theorem addOthers_bounds : (others : List (List Segment)) → {bound lastId : Nat} →
    bound ≤ lastId → bound ≤ (addOthers lastId others).1 ∧
      ∀ nodes ∈ (addOthers lastId others).2, (∀ id ∈ idsOf nodes, bound < id) ∧ GroupsLead nodes
  | [], _, _, hle => ⟨hle, by simp [addOthers]⟩
  | alternative :: rest, bound, lastId, hle => by
    obtain ⟨hbody, hids, hlead⟩ := (extends_addSequence alternative ⟨lastId + 1, [], []⟩).of_empty
    obtain ⟨hlast, hrest⟩ := addOthers_bounds rest (Nat.le_trans (Nat.le_succ_of_le hle) hbody)
    refine ⟨hlast, List.forall_mem_cons.2 ⟨⟨fun id hid => ?_, hlead⟩, hrest⟩⟩
    exact Nat.lt_of_le_of_lt (Nat.le_succ_of_le hle) (hids id hid)

end

end Draft

/-- In the tree of a pattern the ids of groups lead. -/
theorem groupsLead_of_readTree {segments : List Segment} {pattern : Text} {nodes : List Node}
    (h : Derives segments pattern) (hread : readTree pattern = .ok nodes) : GroupsLead nodes := by
  rw [readTree_of_derives h] at hread
  obtain rfl := Except.ok.inj hread
  obtain ⟨hlast, hids, hlead⟩ := (Draft.extends_addSequence segments Draft.empty).of_empty
  exact (Draft.filled_bounds hlast hids hlead).2.2

/-! ## Patterns -/

/-- A text that is not too long is read if it is of the grammar. It has one greedy derivation then,
and is read as the tree of that: a run of literal characters is one literal, an empty alternative
one empty literal, and a group has an alternative more than it has bars. No separator is left, the
ids are different from each other and from 0, and that of a group is smaller than those inside. -/
theorem parse_reads_greedy_derivation (pattern : Text)
    (hshort : pattern.byteLength ≤ maxPatternLength) :
    ((∃ nodes, parse pattern = .ok nodes) ↔ IsSequence pattern) ∧
    (IsSequence pattern ↔ ∃! segments, Derives segments pattern) ∧
    ∀ nodes, parse pattern = .ok nodes → ∃ segments, Derives segments pattern ∧
      unnumberedSequence nodes = outline segments ∧ IsTree nodes ∧ GroupsLead nodes := by
  refine ⟨?_, ?_, fun nodes hnodes => ?_⟩
  · rw [exists_parse_eq_ok_iff, and_iff_right hshort]
  · rw [isSequence_iff_exists_derives]
    constructor
    · rintro ⟨segments, hsegments⟩
      exact ⟨segments, hsegments, fun others hothers => hothers.unique hsegments⟩
    · rintro ⟨segments, hsegments, -⟩
      exact ⟨segments, hsegments⟩
  · obtain ⟨segments, hsegments⟩ := exists_derives (exists_parse_eq_ok_iff.1 ⟨nodes, hnodes⟩).2
    have hread := readTree_of_parse hnodes
    exact ⟨segments, hsegments, unnumbered_of_readTree hsegments hread, isTree_of_parse hnodes,
      groupsLead_of_readTree hsegments hread⟩

/-- The pattern `(a\b|:x?|)?c?`, in which the last `?` is a character of a literal. -/
def mixedSpelling : Text :=
  ['(', 'a', '\\', 'b', '|', ':', 'x', '?', '|', ')', '?', 'c', '?']

/-- The greedy derivation of `(a\b|:x?|)?c?`. -/
def mixedDerivation : List Segment :=
  [.group [.char 'a', .escape 'b'] [[.parameter ['x'] true], []] true, .char 'c', .char '?']

theorem parse_mixedSpelling : ∃ nodes, parse mixedSpelling = .ok nodes ∧
    IsSequence mixedSpelling ∧ unnumberedSequence nodes = outline mixedDerivation ∧
    outline mixedDerivation = [.group 0 [[.literal 0 ['a', 'b']], [.parameter 0 ['x'] true],
      [.literal 0 []]] true, .literal 0 ['c', '?']] ∧ IsTree nodes ∧ GroupsLead nodes := by
  have hshort : mixedSpelling.byteLength ≤ maxPatternLength := by decide
  have hderives : Derives mixedDerivation mixedSpelling := by
    refine ⟨?_, ?_, rfl⟩
    · simp [mixedDerivation, IsProperSequence, IsProper, IsProperAll, isReserved, IsName,
        show isNameStart 'x' = true from rfl]
    · simp [mixedDerivation, IsGreedySequence, IsGreedy, IsGreedyAll, Stops]
  obtain ⟨hread, hderivation, htree⟩ := parse_reads_greedy_derivation mixedSpelling hshort
  have hgrammar : IsSequence mixedSpelling :=
    hderivation.2 ⟨mixedDerivation, hderives, fun _ hother => hother.unique hderives⟩
  obtain ⟨nodes, hnodes⟩ := hread.2 hgrammar
  obtain ⟨segments, hsegments, houtline, hrest⟩ := htree nodes hnodes
  obtain rfl := hsegments.unique hderives
  exact ⟨nodes, hnodes, hgrammar, houtline, rfl, hrest⟩

end RoutePattern
