import Mathlib.Data.List.Perm.Basic
import RoutePattern.Node.Parse
import RoutePattern.Proofs.Node.Tree

/-!
# What is read from a pattern

Whatever has been read of a pattern, its nodes carry different ids between 1 and the last id given
out (`Draft.IsValid`), and every lexeme keeps it so (`isValid_read`). At the end nothing is empty,
so a pattern is read as a tree that can be compiled (`isTree_of_parse`).
-/

namespace RoutePattern

namespace Node

/-- The ids of the nodes of a sequence and inside it. -/
def idsOf (nodes : List Node) : List Nat := (membersOfSequence nodes).map Node.id

/-- The ids of the nodes of the alternatives and inside them. -/
def idsOfAll (alternatives : List (List Node)) : List Nat :=
  (membersOfAll alternatives).map Node.id

theorem map_id_members_group (id : Nat) (alternatives : List (List Node)) (optional : Bool) :
    (group id alternatives optional).members.map Node.id = id :: idsOfAll alternatives := rfl

@[simp] theorem idsOf_nil : idsOf [] = [] := rfl

@[simp] theorem idsOfAll_nil : idsOfAll [] = [] := rfl

@[simp] theorem idsOf_cons (node : Node) (rest : List Node) :
    idsOf (node :: rest) = node.members.map Node.id ++ idsOf rest := by
  rw [idsOf, membersOfSequence, List.map_append, idsOf]

@[simp] theorem idsOfAll_cons (alternative : List Node) (rest : List (List Node)) :
    idsOfAll (alternative :: rest) = idsOf alternative ++ idsOfAll rest := by
  rw [idsOfAll, membersOfAll, List.map_append, idsOf, idsOfAll]

/-- A draft holds its nodes in reverse order; this does not change which ids they carry. -/
theorem idsOf_reverse (nodes : List Node) : (idsOf nodes.reverse).Perm (idsOf nodes) := by
  rw [idsOf, idsOf, membersOfSequence_eq_flatMap, membersOfSequence_eq_flatMap]
  exact (nodes.reverse_perm.flatMap_right _).map _

theorem idsOfAll_reverse (alternatives : List (List Node)) :
    (idsOfAll alternatives.reverse).Perm (idsOfAll alternatives) := by
  rw [idsOfAll, idsOfAll, membersOfAll_eq_flatMap, membersOfAll_eq_flatMap]
  exact (alternatives.reverse_perm.flatMap_right _).map _

/-- A sequence is sound if its nodes are. -/
theorem soundSequence_iff {nodes : List Node} :
    SoundSequence nodes ↔ ∀ node ∈ nodes, node.Sound := by
  induction nodes with
  | nil => simp [SoundSequence]
  | cons node nodes ih => rw [SoundSequence, ih, List.forall_mem_cons]

end Node

open Node

/-! ## Ids given out -/

/-- The ids are different from each other and lie between 1 and `lastId`. -/
structure Numbered (lastId : Nat) (ids : List Nat) : Prop where
  nodup : ids.Nodup
  bounds : ∀ id ∈ ids, 1 ≤ id ∧ id ≤ lastId

namespace Numbered

variable {lastId : Nat} {ids : List Nat}

/-- The order of the ids does not matter. -/
theorem perm (h : Numbered lastId ids) {other : List Nat} (hperm : other.Perm ids) :
    Numbered lastId other :=
  ⟨hperm.nodup_iff.2 h.nodup, fun id hid => h.bounds id (hperm.mem_iff.1 hid)⟩

/-- An id may be given out and not be used. -/
theorem skip (h : Numbered lastId ids) : Numbered (lastId + 1) ids :=
  ⟨h.nodup, fun id hid => ⟨(h.bounds id hid).1, Nat.le_succ_of_le (h.bounds id hid).2⟩⟩

/-- The id given out next is different from those before it. -/
theorem next (h : Numbered lastId ids) : Numbered (lastId + 1) ((lastId + 1) :: ids) := by
  refine ⟨List.nodup_cons.2 ⟨?_, h.nodup⟩, List.forall_mem_cons.2 ⟨by omega, h.skip.bounds⟩⟩
  intro hmem
  have := (h.bounds _ hmem).2
  omega

end Numbered

/-! ## Empty sequences filled -/

namespace Draft

/-- An empty sequence is filled with a literal, whose id is a new one. -/
theorem numbered_filled {lastId : Nat} {nodes : List Node} {others : List Nat}
    (h : Numbered lastId (idsOf nodes ++ others)) :
    Numbered (filled lastId nodes).2 (idsOf (filled lastId nodes).1 ++ others) := by
  cases nodes with
  | nil => exact h.next
  | cons node nodes => exact h.perm ((idsOf_reverse _).append_right _)

/-- Filling the empty ones of the alternatives keeps the ids numbered, next to any ids elsewhere. -/
theorem numbered_fillAll {lastId : Nat} {alternatives : List (List Node)} {others : List Nat}
    (h : Numbered lastId (idsOfAll alternatives ++ others)) :
    Numbered (fillAll lastId alternatives).2
      (idsOfAll (fillAll lastId alternatives).1 ++ others) := by
  induction alternatives generalizing lastId others with
  | nil => exact h
  | cons nodes rest ih =>
    rw [idsOfAll_cons, List.append_assoc] at h
    have hfirst := (numbered_filled h).perm (List.perm_append_comm_assoc _ _ _)
    rw [fillAll, idsOfAll_cons, List.append_assoc]
    exact (ih hfirst).perm (List.perm_append_comm_assoc _ _ _)

/-- No alternative is added or lost. -/
theorem length_fillAll (lastId : Nat) (alternatives : List (List Node)) :
    (fillAll lastId alternatives).1.length = alternatives.length := by
  induction alternatives generalizing lastId with
  | nil => rfl
  | cons nodes rest ih => rw [fillAll, List.length_cons, ih, List.length_cons]

/-- What has been filled is not empty, and it is sound if all nodes before were. -/
theorem filled_sound {lastId : Nat} {nodes : List Node} (h : ∀ node ∈ nodes, node.Sound) :
    (filled lastId nodes).1 ≠ [] ∧ ∀ node ∈ (filled lastId nodes).1, node.Sound := by
  cases nodes with
  | nil => simp [filled, Sound]
  | cons node nodes =>
    refine ⟨by simp [filled], ?_⟩
    intro other hother
    exact h other (List.mem_reverse.1 hother)

theorem fillAll_sound {lastId : Nat} {alternatives : List (List Node)}
    (h : ∀ alternative ∈ alternatives, ∀ node ∈ alternative, node.Sound) :
    SoundAll (fillAll lastId alternatives).1 := by
  induction alternatives generalizing lastId with
  | nil => trivial
  | cons nodes rest ih =>
    rw [List.forall_mem_cons] at h
    obtain ⟨hne, hsound⟩ := @filled_sound lastId nodes h.1
    exact ⟨⟨hne, soundSequence_iff.2 hsound⟩, ih h.2⟩

/-! ## Drafts -/

/-- The ids in use. -/
def ids (draft : Draft) : List Nat :=
  idsOf draft.nodes ++ draft.groups.flatMap fun group =>
    group.id :: (idsOf group.before ++ idsOfAll group.finished)

/-- The ids of a draft are numbered, and all that is wrong with its nodes is that a sequence under
way may be empty. -/
structure IsValid (draft : Draft) : Prop where
  numbered : Numbered draft.lastId draft.ids
  nodes : ∀ node ∈ draft.nodes, node.Sound
  before : ∀ group ∈ draft.groups, ∀ node ∈ group.before, node.Sound
  finished : ∀ group ∈ draft.groups, ∀ alternative ∈ group.finished, ∀ node ∈ alternative,
    node.Sound

theorem isValid_empty : empty.IsValid :=
  ⟨⟨.nil, by simp [ids, empty]⟩, by simp [empty], by simp [empty], by simp [empty]⟩

/-- A parameter gets a new id in front of the nodes of the draft. -/
theorem isValid_addParameter {draft : Draft} (h : draft.IsValid) (name : Text) (optional : Bool) :
    (draft.addParameter name optional).IsValid where
  numbered := h.numbered.next
  nodes := List.forall_mem_cons.2 ⟨trivial, h.nodes⟩
  before := h.before
  finished := h.finished

/-- A character goes into the literal before it, or begins one with a new id. -/
theorem isValid_addChar {draft : Draft} (h : draft.IsValid) (c : Char) :
    (draft.addChar c).IsValid := by
  unfold addChar
  split
  · next id text before heq =>
    have hnumbered := h.numbered
    rw [ids, heq] at hnumbered
    have hnodes := h.nodes
    rw [heq, List.forall_mem_cons] at hnodes
    exact ⟨hnumbered, List.forall_mem_cons.2 ⟨trivial, hnodes.2⟩, h.before, h.finished⟩
  · exact ⟨h.numbered.next, List.forall_mem_cons.2 ⟨trivial, h.nodes⟩, h.before, h.finished⟩

/-- An opening bracket puts the nodes so far aside and gives out the id of the group. -/
theorem isValid_openGroup {draft : Draft} (h : draft.IsValid) (offset : Nat) :
    (draft.openGroup offset).IsValid where
  numbered := by
    simpa [ids, openGroup] using h.numbered.next
  nodes := by simp [openGroup]
  before := List.forall_mem_cons.2 ⟨h.nodes, h.before⟩
  finished := List.forall_mem_cons.2 ⟨by simp, h.finished⟩

/-- A bar finishes an alternative. It is given an id, which no node carries in the end. -/
theorem isValid_endAlternative? {draft next : Draft} (h : draft.IsValid)
    (hnext : draft.endAlternative? = some next) : next.IsValid := by
  unfold endAlternative? at hnext
  split at hnext
  · cases hnext
  · next group outer heq =>
    obtain rfl := Option.some.inj hnext
    obtain ⟨hnumbered, hnodes, hbefore, hfinished⟩ := h
    rw [heq, List.forall_mem_cons] at hbefore hfinished
    refine ⟨hnumbered.skip.perm ?_, by simp, List.forall_mem_cons.2 hbefore,
      List.forall_mem_cons.2 ⟨List.forall_mem_cons.2 ⟨hnodes, hfinished.1⟩, hfinished.2⟩⟩
    -- The ids of the alternative move from the nodes under way to the finished ones: the same ids,
    -- in another place.
    rw [List.perm_iff_count]
    intro id
    simp only [ids, heq, List.flatMap_cons, idsOf_nil, idsOfAll_cons, List.nil_append,
      List.cons_append, List.count_cons, List.count_append]
    omega

/-- A closing bracket makes one node of a group, with each empty alternative filled. -/
theorem isValid_closeGroup? {draft next : Draft} {optional : Bool} (h : draft.IsValid)
    (hnext : draft.closeGroup? optional = some next) : next.IsValid := by
  unfold closeGroup? at hnext
  split at hnext
  · cases hnext
  · next group outer heq =>
    obtain rfl := Option.some.inj hnext
    obtain ⟨hnumbered, hnodes, hbefore, hfinished⟩ := h
    rw [heq, List.forall_mem_cons] at hbefore hfinished
    -- The nodes under way are the last alternative of the group.
    have hsound : ∀ alternative ∈ (draft.nodes :: group.finished).reverse,
        ∀ node ∈ alternative, node.Sound := by
      intro alternative hmem
      exact List.forall_mem_cons.2 ⟨hnodes, hfinished.1⟩ alternative (List.mem_reverse.1 hmem)
    -- Filling looks at the ids of the alternatives; those of the nodes before the group and of the
    -- groups around it stand beside them.
    have hfill : Numbered draft.lastId (idsOfAll (draft.nodes :: group.finished).reverse ++
        (group.id :: idsOf group.before ++ outer.flatMap fun group =>
          group.id :: (idsOf group.before ++ idsOfAll group.finished))) := by
      refine hnumbered.perm (((idsOfAll_reverse _).append_right _).trans ?_)
      rw [List.perm_iff_count]
      intro id
      simp only [ids, heq, List.flatMap_cons, idsOfAll_cons, List.cons_append, List.count_cons,
        List.count_append]
      omega
    refine ⟨(numbered_fillAll hfill).perm ?_, List.forall_mem_cons.2 ⟨⟨?_, fillAll_sound hsound⟩,
      hbefore.1⟩, hbefore.2, hfinished.2⟩
    · rw [List.perm_iff_count]
      intro id
      simp only [ids, idsOf_cons, map_id_members_group, List.cons_append,
        List.count_cons, List.count_append]
      omega
    · -- There is at least the alternative under way, so the group is not empty.
      intro hnil
      have hlength := length_fillAll draft.lastId (draft.nodes :: group.finished).reverse
      rw [hnil, List.length_reverse] at hlength
      simp at hlength

/-- Every lexeme that can be read keeps the draft valid. -/
theorem isValid_read {draft next : Draft} {lexeme : Lexeme} (h : draft.IsValid)
    (hnext : draft.read lexeme = .ok next) : next.IsValid := by
  cases lexeme with
  | char c =>
    obtain rfl := Except.ok.inj hnext
    exact isValid_addChar h c
  | parameter name optional =>
    obtain rfl := Except.ok.inj hnext
    exact isValid_addParameter h name optional
  | opening offset =>
    obtain rfl := Except.ok.inj hnext
    exact isValid_openGroup h offset
  | closing offset optional =>
    rw [read] at hnext
    split at hnext
    · next closed hclosed =>
      obtain rfl := Except.ok.inj hnext
      exact isValid_closeGroup? h hclosed
    · cases hnext
  | bar offset =>
    rw [read] at hnext
    split at hnext
    · next ended hended =>
      obtain rfl := Except.ok.inj hnext
      exact isValid_endAlternative? h hended
    · cases hnext
  | loneEscape offset => cases hnext
  | unnamed offset => cases hnext

theorem isValid_readAll {draft last : Draft} {lexemes : List Lexeme} (h : draft.IsValid)
    (hlast : draft.readAll lexemes = .ok last) : last.IsValid := by
  induction lexemes generalizing draft with
  | nil => exact Except.ok.inj hlast ▸ h
  | cons lexeme lexemes ih =>
    unfold readAll at hlast
    split at hlast
    · next next hnext => exact ih (isValid_read h hnext) hlast
    · cases hlast

/-- A valid draft with no open group ends as a tree: the outermost sequence is filled too. -/
theorem isTree_of_finish {draft : Draft} {nodes : List Node} (h : draft.IsValid)
    (hnodes : draft.finish = .ok nodes) : IsTree nodes := by
  unfold finish at hnodes
  split at hnodes
  · next hgroups =>
    obtain rfl := Except.ok.inj hnodes
    obtain ⟨hne, hsound⟩ := @filled_sound draft.lastId draft.nodes h.nodes
    have hnumbered := h.numbered
    rw [ids, hgroups, List.flatMap_nil] at hnumbered
    obtain ⟨hnodup, hbounds⟩ := numbered_filled hnumbered
    rw [List.append_nil] at hnodup hbounds
    refine ⟨hne, soundSequence_iff.2 hsound, hnodup, ?_⟩
    intro node hnode
    exact (hbounds node.id (List.mem_map_of_mem hnode)).1
  · cases hnodes

end Draft

/-- A pattern is read as a tree that can be compiled. -/
theorem isTree_of_parse {pattern : Text} {nodes : List Node} (h : parse pattern = .ok nodes) :
    IsTree nodes := by
  unfold parse at h
  split at h
  · cases h
  · split at h
    · next tree htree =>
      obtain rfl := Except.ok.inj h
      unfold readTree at htree
      split at htree
      · next draft hdraft =>
        exact Draft.isTree_of_finish (Draft.isValid_readAll Draft.isValid_empty hdraft) htree
      · cases htree
    · cases h

end RoutePattern
