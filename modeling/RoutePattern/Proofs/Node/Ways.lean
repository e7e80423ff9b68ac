import RoutePattern.Proofs.Distinct
import RoutePattern.Proofs.Node.Shape

/-!
# The ways through a tree

`waysOfSequence` reads a tree from left to right: of a group it takes one alternative after the
other, and an optional node it takes before it leaves it out. These are the ways of the shape of
the tree (`waysOfSequence_eq`), in which a way can stand more than once.

Where leaves have ranks that ascend in reading order, ways can be compared (`Earlier`). In an
orderly tree nothing that can be left out stands first in an alternative that something follows;
there each way is earlier than all ways behind it (`sorted_shapeOfSequence`).
-/

namespace RoutePattern

namespace Node

mutual

/-- The ways through a node, as the leaves that they meet. -/
def ways : Node → List (List Leaf)
  | literal id text => [[⟨id, .fixed text⟩]]
  | parameter id name optional => [⟨id, .capture name⟩] :: if optional then [[]] else []
  | group _ alternatives optional => waysOfAll alternatives ++ if optional then [[]] else []
  | separator _ => []

/-- The ways through a sequence, those that begin with the first way through its first node
first. -/
def waysOfSequence : List Node → List (List Leaf)
  | [] => [[]]
  | node :: rest => node.ways.flatMap fun lead => (waysOfSequence rest).map (lead ++ ·)

/-- The ways through the alternatives of a group, one alternative after the other. -/
def waysOfAll : List (List Node) → List (List Leaf)
  | [] => []
  | alternative :: rest => waysOfSequence alternative ++ waysOfAll rest

end

/-- A shape that may be left out has one more way, which is empty and comes last. -/
theorem ways_orSkip (shape : Shape) (optional : Bool) :
    (shape.orSkip optional).ways = shape.ways ++ if optional then [[]] else [] := by
  cases optional with
  | false => exact (List.append_nil _).symm
  | true => rfl

mutual

/-- The ways through a node are those of its shape, in the same order. -/
theorem ways_eq : (node : Node) → node.ways = (node.shape true).ways
  | literal .. => rfl
  | parameter id name optional => by
    rw [shape, Bool.true_and, ways_orSkip]
    rfl
  | group id alternatives optional => by
    rw [shape, Bool.true_and, ways_orSkip, ways, waysOfAll_eq]
  | separator _ => rfl

theorem waysOfSequence_eq : (nodes : List Node) →
    waysOfSequence nodes = (shapeOfSequence true nodes).ways
  | [] => rfl
  | node :: rest => by
    rw [waysOfSequence, ways_eq node, waysOfSequence_eq rest, shapeOfSequence, Shape.ways]

theorem waysOfAll_eq : (alternatives : List (List Node)) →
    waysOfAll alternatives = (shapeOfAll true alternatives).ways
  | [] => rfl
  | alternative :: rest => by
    rw [waysOfAll, waysOfSequence_eq alternative, waysOfAll_eq rest, shapeOfAll, Shape.ways]

end

/-- A way meets leaves of the tree only. -/
theorem mem_leavesOf_of_mem_way {nodes : List Node} {way : List Leaf}
    (h : way ∈ waysOfSequence nodes) {leaf : Leaf} (hleaf : leaf ∈ way) :
    leaf ∈ leavesOf nodes := by
  rw [leavesOf, ← leaves_shapeOfSequence true]
  rw [waysOfSequence_eq] at h
  exact Shape.mem_leaves_of_mem_ways h hleaf

/-! ## Orderly trees -/

mutual

/-- Nothing that can be left out stands first in the node, nor is the node optional. -/
def firm : Node → Bool
  | literal .. => true
  | parameter _ _ optional => !optional
  | group _ alternatives optional => !optional && firmAll alternatives
  | separator _ => true

/-- Nothing that can be left out stands first in the sequence. -/
def firmSequence : List Node → Bool
  | [] => false
  | first :: _ => first.firm

/-- Nothing that can be left out stands first in any of the alternatives. -/
def firmAll : List (List Node) → Bool
  | [] => true
  | alternative :: rest => firmSequence alternative && firmAll rest

end

mutual

/-- In the groups of the node, nothing that can be left out stands first in an alternative that
is followed by another one or, in an optional group, by the way that leaves out the group. -/
def orderly : Node → Bool
  | literal .. => true
  | parameter .. => true
  | group _ alternatives optional => orderlyAll optional alternatives
  | separator _ => true

/-- All nodes of the sequence are orderly. -/
def orderlySequence : List Node → Bool
  | [] => true
  | node :: rest => node.orderly && orderlySequence rest

/-- The alternatives are orderly, and those that something follows are firm; `followed` says
whether something follows the last one. -/
def orderlyAll (followed : Bool) : List (List Node) → Bool
  | [] => true
  | alternative :: rest =>
    orderlySequence alternative &&
      (firmSequence alternative || (rest.isEmpty && !followed)) && orderlyAll followed rest

end

/-- If something follows the last alternative too, all of them have to be firm. -/
theorem firmAll_of_orderlyAll {alternatives : List (List Node)}
    (h : orderlyAll true alternatives = true) : firmAll alternatives = true := by
  induction alternatives with
  | nil => rfl
  | cons alternative rest ih =>
    simp only [orderlyAll, Bool.not_true, Bool.and_false, Bool.or_false, Bool.and_eq_true] at h
    rw [firmAll, h.1.2, ih h.2]
    rfl

mutual

/-- A firm node cannot be left out. -/
theorem ne_nil_of_firm : {node : Node} → node.firm = true →
    ∀ way ∈ (node.shape true).ways, way ≠ []
  | literal .., _, way, hway => by
    rw [List.mem_singleton.1 hway]
    exact List.cons_ne_nil _ _
  | parameter id name optional, h, way, hway => by
    obtain rfl : optional = false := by simpa [firm] using h
    rw [List.mem_singleton.1 hway]
    exact List.cons_ne_nil _ _
  | group id alternatives optional, h, way, hway => by
    obtain ⟨hoptional, hall⟩ : optional = false ∧ firmAll alternatives = true := by
      simpa [firm] using h
    subst hoptional
    exact ne_nil_of_firmAll hall way hway
  | separator _, _, way, hway => by simp [shape, Shape.ways] at hway

theorem ne_nil_of_firmSequence : {nodes : List Node} → firmSequence nodes = true →
    ∀ way ∈ (shapeOfSequence true nodes).ways, way ≠ []
  | [], h, _, _ => by simp [firmSequence] at h
  | node :: rest, h, way, hway => by
    obtain ⟨lead, hlead, hmem⟩ := List.mem_flatMap.1 hway
    obtain ⟨others, -, rfl⟩ := List.mem_map.1 hmem
    have hfirst : node.firm = true := h
    have hne := ne_nil_of_firm hfirst lead hlead
    simp [hne]

theorem ne_nil_of_firmAll : {alternatives : List (List Node)} → firmAll alternatives = true →
    ∀ way ∈ (shapeOfAll true alternatives).ways, way ≠ []
  | [], _, way, hway => by simp [shapeOfAll, Shape.ways] at hway
  | alternative :: rest, h, way, hway => by
    rw [firmAll, Bool.and_eq_true] at h
    rcases List.mem_append.1 hway with hway | hway
    · exact ne_nil_of_firmSequence h.1 way hway
    · exact ne_nil_of_firmAll h.2 way hway

end

end Node

/-! ## Earlier ways -/

/-- Where two lists of ids first differ, the first one has the id of lower rank, or only the first
one goes on. -/
inductive Earlier (rank : Nat → Nat) : List Nat → List Nat → Prop
  | stop {id : Nat} {ids : List Nat} : Earlier rank (id :: ids) []
  | lower {id other : Nat} {ids others : List Nat} (hrank : rank id < rank other) :
      Earlier rank (id :: ids) (other :: others)
  | same {id : Nat} {ids others : List Nat} (hrest : Earlier rank ids others) :
      Earlier rank (id :: ids) (id :: others)

namespace Earlier

variable {rank : Nat → Nat} {ids others : List Nat}

/-- Of two ways only one can be earlier. -/
theorem asymm (h : Earlier rank ids others) : ¬ Earlier rank others ids := by
  induction h with
  | stop => nofun
  | lower hrank =>
    intro h
    cases h with
    | lower hother => omega
    | same => omega
  | same _ ih =>
    intro h
    cases h with
    | lower hother => omega
    | same hrest => exact ih hrest

/-- What two ways begin with alike does not matter. -/
theorem append_left (lead : List Nat) (h : Earlier rank ids others) :
    Earlier rank (lead ++ ids) (lead ++ others) := by
  induction lead with
  | nil => exact h
  | cons id lead ih => exact .same ih

/-- The earlier of two ways stays so when both go on, as long as what is behind the later one has
greater ranks than the earlier one itself. -/
theorem append (h : Earlier rank ids others) {more behind : List Nat}
    (hbehind : ∀ id ∈ ids, ∀ other ∈ behind, rank id < rank other) :
    Earlier rank (ids ++ more) (others ++ behind) := by
  induction h with
  -- The second way has ended, so it goes on with what is behind it, and that has greater ranks.
  | @stop id ids =>
    cases behind with
    | nil => exact .stop
    | cons other behind => exact .lower (hbehind id List.mem_cons_self other List.mem_cons_self)
  | lower hrank => exact .lower hrank
  | same _ ih => exact .same (ih fun id hid => hbehind id (List.mem_cons_of_mem _ hid))

/-- A way all of whose ranks are lower is earlier, unless it is empty. -/
theorem of_lower (hne : ids ≠ []) (h : ∀ id ∈ ids, ∀ other ∈ others, rank id < rank other) :
    Earlier rank ids others := by
  cases ids with
  | nil => exact absurd rfl hne
  | cons id ids =>
    cases others with
    | nil => exact .stop
    | cons other others => exact .lower (h id List.mem_cons_self other List.mem_cons_self)

end Earlier

namespace Shape

variable {rank : Nat → Nat} {first second : Shape}

/-- The ranks of the leaves ascend in reading order. -/
def Ascends (rank : Nat → Nat) (shape : Shape) : Prop :=
  shape.leaves.Pairwise fun leaf other => rank leaf.id < rank other.id

/-- Each way through the shape is earlier than all ways behind it. -/
def Sorted (rank : Nat → Nat) (shape : Shape) : Prop :=
  shape.ways.Pairwise fun way other => Earlier rank (way.map Leaf.id) (other.map Leaf.id)

/-- What stands in the first part of a sequence has lower ranks than what stands in the second. -/
theorem Ascends.lower (h : (join first second).Ascends rank) {way other : List Leaf}
    (hway : way ∈ first.ways) (hother : other ∈ second.ways) :
    ∀ id ∈ way.map Leaf.id, ∀ behind ∈ other.map Leaf.id, rank id < rank behind := by
  intro id hid behind hbehind
  obtain ⟨leaf, hleaf, rfl⟩ := List.mem_map.1 hid
  obtain ⟨last, hlast, rfl⟩ := List.mem_map.1 hbehind
  exact (List.pairwise_append.1 h).2.2 leaf (mem_leaves_of_mem_ways hway hleaf) last
    (mem_leaves_of_mem_ways hother hlast)

/-- One after the other, two sorted shapes make a sorted one. -/
theorem Sorted.join (hfirst : first.Sorted rank) (hsecond : second.Sorted rank)
    (h : (Shape.join first second).Ascends rank) : (Shape.join first second).Sorted rank := by
  refine List.pairwise_flatMap.2 ⟨fun lead _ => ?_, ?_⟩
  · -- Two ways with the same lead are compared by what follows it.
    refine List.pairwise_map.2 (hsecond.imp fun hearlier => ?_)
    rw [List.map_append, List.map_append]
    exact hearlier.append_left _
  · -- Two ways with different leads are compared by the leads, whatever follows.
    refine List.Pairwise.imp_of_mem ?_ hfirst
    intro lead other hlead _ hearlier way hway behind hbehind
    obtain ⟨more, -, rfl⟩ := List.mem_map.1 hway
    obtain ⟨rest, hrest, rfl⟩ := List.mem_map.1 hbehind
    rw [List.map_append, List.map_append]
    exact hearlier.append (h.lower hlead hrest)

/-- Of two sorted shapes to choose from, the first one must not have the empty way, which is later
than all others. -/
theorem Sorted.choice (hfirst : first.Sorted rank) (hsecond : second.Sorted rank)
    (h : (Shape.choice first second).Ascends rank) (hne : ∀ way ∈ first.ways, way ≠ []) :
    (Shape.choice first second).Sorted rank := by
  refine List.pairwise_append.2 ⟨hfirst, hsecond, ?_⟩
  intro way hway other hother
  refine .of_lower (by simpa using hne way hway) ?_
  have hjoin : (Shape.join first second).Ascends rank := h
  exact hjoin.lower hway hother

end Shape

namespace Node

variable {rank : Nat → Nat}

mutual

/-- In an orderly node, ways come in the order of the ranks. -/
theorem sorted_shape : {node : Node} → node.orderly = true → (node.shape true).Ascends rank →
    (node.shape true).Sorted rank
  | literal .., _, _ => List.pairwise_singleton _ _
  | parameter id name false, _, _ => List.pairwise_singleton _ _
  | parameter id name true, _, _ =>
    List.pairwise_cons.2
      ⟨fun _ h => by rw [List.mem_singleton.1 h]; exact .stop, List.pairwise_singleton _ _⟩
  | group id alternatives optional, h, hascends => by
    rw [Shape.Ascends, shape, Shape.leaves_orSkip] at hascends
    have hall := sorted_shapeOfAll h hascends
    cases optional with
    | false => exact hall
    | true =>
      rw [shape, Bool.true_and, Shape.orSkip, if_pos rfl]
      -- Leaving the group out comes last, behind ways of which none is empty.
      refine hall.choice (List.pairwise_singleton _ _) ?_ ?_
      · rw [Shape.Ascends, Shape.leaves, Shape.leaves, List.append_nil]
        exact hascends
      · exact ne_nil_of_firmAll (firmAll_of_orderlyAll h)
  | separator _, _, _ => List.Pairwise.nil

theorem sorted_shapeOfSequence : {nodes : List Node} → orderlySequence nodes = true →
    (shapeOfSequence true nodes).Ascends rank → (shapeOfSequence true nodes).Sorted rank
  | [], _, _ => List.pairwise_singleton _ _
  | node :: rest, h, hascends => by
    rw [orderlySequence, Bool.and_eq_true] at h
    obtain ⟨hnode, hrest, -⟩ := List.pairwise_append.1 hascends
    exact (sorted_shape h.1 hnode).join (sorted_shapeOfSequence h.2 hrest) hascends

theorem sorted_shapeOfAll {followed : Bool} : {alternatives : List (List Node)} →
    orderlyAll followed alternatives = true → (shapeOfAll true alternatives).Ascends rank →
    (shapeOfAll true alternatives).Sorted rank
  | [], _, _ => List.Pairwise.nil
  | alternative :: rest, h, hascends => by
    rw [orderlyAll, Bool.and_eq_true, Bool.and_eq_true, Bool.or_eq_true, Bool.and_eq_true] at h
    obtain ⟨⟨horderly, hfollowed⟩, hall⟩ := h
    obtain ⟨hfirst, hsecond, -⟩ := List.pairwise_append.1 hascends
    have hsorted := sorted_shapeOfSequence horderly hfirst
    rcases hfollowed with hfirm | ⟨hlast, -⟩
    · exact hsorted.choice (sorted_shapeOfAll hall hsecond) hascends (ne_nil_of_firmSequence hfirm)
    · -- The last alternative need not be firm, because nothing follows it.
      obtain rfl := List.isEmpty_iff.1 hlast
      rw [Shape.Sorted, shapeOfAll, Shape.ways, shapeOfAll, Shape.ways, List.append_nil]
      exact hsorted

end

end Node

end RoutePattern
