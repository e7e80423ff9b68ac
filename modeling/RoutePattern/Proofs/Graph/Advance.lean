import RoutePattern.Proofs.Graph.Flow
import RoutePattern.Proofs.Node.Ways

/-!
# Ranks along the edges of a shape

In a shape that flows, ranks grow from one part of a sequence to the next, but alternatives of a
group may be ranked in any order. That is enough for every edge around the shape to go to a greater
rank (`Advances.lt_of_mem_around`).
-/

namespace RoutePattern

variable {rank : Nat → Nat}

namespace Shape

/-- What comes later on a way has a greater rank. -/
def Flows (rank : Nat → Nat) : Shape → Prop
  | nothing => True
  | skip => True
  | one _ => True
  | join first second => first.Flows rank ∧ second.Flows rank ∧
      ∀ id ∈ first.ids, ∀ other ∈ second.ids, rank id < rank other
  | choice first second => first.Flows rank ∧ second.Flows rank

/-- Ranks that follow the reading order grow along every way. -/
theorem Ascends.flows {shape : Shape} (h : shape.Ascends rank) : shape.Flows rank := by
  induction shape with
  | nothing => trivial
  | skip => trivial
  | one leaf => trivial
  | join first second ihf ihs =>
    obtain ⟨hfirst, hsecond, hlt⟩ := List.pairwise_append.1 h
    refine ⟨ihf hfirst, ihs hsecond, ?_⟩
    rintro _ ⟨leaf, hleaf, rfl⟩ _ ⟨last, hlast, rfl⟩
    exact hlt leaf hleaf last hlast
  | choice first second ihf ihs =>
    obtain ⟨hfirst, hsecond, -⟩ := List.pairwise_append.1 h
    exact ⟨ihf hfirst, ihs hsecond⟩

end Shape

/-- The ranks grow from the states before a shape along its ways to those behind it. -/
structure Advances (rank : Nat → Nat) (before : Set Nat) (shape : Shape) (after : Set Nat) :
    Prop where
  flows : shape.Flows rank
  before_lt : ∀ id ∈ before, ∀ other ∈ shape.ids ∪ after, rank id < rank other
  lt_after : ∀ id ∈ shape.ids, ∀ other ∈ after, rank id < rank other

namespace Advances

variable {before after : Set Nat} {shape first second : Shape}

/-- What stands behind the first part of a sequence is where the second part begins, which may be
behind the whole sequence. -/
theorem joinFirst (h : Advances rank before (.join first second) after) :
    Advances rank before first (second.enter after) := by
  have henter : second.enter after ⊆ second.ids ∪ after := Shape.enter_subset
  refine ⟨h.flows.1, ?_, ?_⟩
  · intro id hid other hother
    refine h.before_lt id hid other ?_
    rw [Shape.ids_join, Set.union_assoc]
    exact hother.imp_right fun hother => henter hother
  · intro id hid other hother
    rcases henter hother with hother | hother
    · exact h.flows.2.2 id hid other hother
    · exact h.lt_after id (by simp [hid]) other hother

/-- What stands before the second part is where the first part is left. -/
theorem joinSecond (h : Advances rank before (.join first second) after) :
    Advances rank (first.leave before) second after := by
  have hleave : first.leave before ⊆ first.ids ∪ before := Shape.leave_subset
  refine ⟨h.flows.2.1, ?_, fun id hid => h.lt_after id (by simp [hid])⟩
  intro id hid other hother
  -- The second part may be met from before the whole sequence, if the first one can be skipped.
  rcases hleave hid with hid | hid
  · rcases hother with hother | hother
    · exact h.flows.2.2 id hid other hother
    · exact h.lt_after id (by simp [hid]) other hother
  · exact h.before_lt id hid other (hother.imp_left fun hother => by simp [hother])

theorem choiceFirst (h : Advances rank before (.choice first second) after) :
    Advances rank before first after where
  flows := h.flows.1
  before_lt id hid other hother :=
    h.before_lt id hid other (hother.imp_left fun hother => by simp [hother])
  lt_after id hid := h.lt_after id (by simp [hid])

theorem choiceSecond (h : Advances rank before (.choice first second) after) :
    Advances rank before second after where
  flows := h.flows.2
  before_lt id hid other hother :=
    h.before_lt id hid other (hother.imp_left fun hother => by simp [hother])
  lt_after id hid := h.lt_after id (by simp [hid])

/-- Every edge around the shape goes to a greater rank. -/
theorem lt_of_mem_around (h : Advances rank before shape after) {id target : Nat}
    (hedge : (id, target) ∈ shape.around before after) : rank id < rank target := by
  induction shape generalizing before after with
  | nothing => simp [Shape.around_nothing] at hedge
  | skip =>
    rw [Shape.around_skip] at hedge
    exact h.before_lt id hedge.1 target (.inr hedge.2)
  | one leaf =>
    rw [Shape.around_one] at hedge
    rcases hedge with ⟨hid, htarget⟩ | ⟨hid, htarget⟩
    · exact h.before_lt id hid target (.inl (by simpa using htarget))
    · exact h.lt_after id (by simpa using hid) target htarget
  | join first second ihf ihs =>
    rw [Shape.around_join_second] at hedge
    rcases hedge with hedge | hedge
    · exact ihf h.joinFirst (.inl hedge)
    · exact ihs h.joinSecond hedge
  | choice first second ihf ihs =>
    rw [Shape.around_choice] at hedge
    exact hedge.elim (ihf h.choiceFirst) (ihs h.choiceSecond)

end Advances

end RoutePattern
