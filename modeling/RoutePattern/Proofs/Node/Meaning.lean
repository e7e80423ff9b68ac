import RoutePattern.Proofs.Node.Shape
import RoutePattern.Proofs.Path.Cuts

/-!
# What a pattern means

`Node.Reads` and `Node.ReadsSequence` say, on the tree alone, which texts a node and a sequence
match and what is captured then, from left to right. A text is matched if and only if one of the
ways through the shape of the tree reads it (`readsSequence_iff`).
-/

namespace RoutePattern

namespace Node

mutual

/-- The node matches the input with these captures. -/
inductive Reads : Node → Text → List (Text × Text) → Prop
  | literal {id : Nat} {text : Text} : Reads (.literal id text) text []
  | parameter {id : Nat} {name : Text} {optional : Bool} {value : Text}
      (hvalue : IsValue name value) : Reads (.parameter id name optional) value [(name, value)]
  | group {id : Nat} {alternatives : List (List Node)} {optional : Bool}
      {alternative : List Node} {input : Text} {captures : List (Text × Text)}
      (hmem : alternative ∈ alternatives) (hreads : ReadsSequence alternative input captures) :
      Reads (.group id alternatives optional) input captures
  | skipParameter {id : Nat} {name : Text} : Reads (.parameter id name true) [] []
  | skipGroup {id : Nat} {alternatives : List (List Node)} :
      Reads (.group id alternatives true) [] []

/-- The nodes of a sequence match the input, one after the other. -/
inductive ReadsSequence : List Node → Text → List (Text × Text) → Prop
  | nil : ReadsSequence [] [] []
  | cons {node : Node} {rest : List Node} {lead left : Text} {made others : List (Text × Text)}
      (hnode : Reads node lead made) (hrest : ReadsSequence rest left others) :
      ReadsSequence (node :: rest) (lead ++ left) (made ++ others)

end

end Node

namespace Shape

variable {shape first second : Shape} {input : Text} {captures : List (Text × Text)}

/-- A way through the shape reads the input with these captures. -/
def Reads (shape : Shape) (input : Text) (captures : List (Text × Text)) : Prop :=
  ∃ way ∈ shape.ways, Path.Reads (way.map Leaf.kind) input captures

theorem not_reads_nothing : ¬ nothing.Reads input captures := by
  simp [Reads, ways]

theorem reads_skip_iff : skip.Reads input captures ↔ input = [] ∧ captures = [] := by
  simp [Reads, ways, Path.reads_nil_iff]

theorem reads_one_iff {leaf : Leaf} :
    (one leaf).Reads input captures ↔ Path.Reads [leaf.kind] input captures := by
  simp [Reads, ways]

/-- A sequence reads the input in two parts. -/
theorem reads_join_iff : (join first second).Reads input captures ↔
    ∃ lead left made others, input = lead ++ left ∧ captures = made ++ others ∧
      first.Reads lead made ∧ second.Reads left others := by
  simp only [Reads, ways, List.mem_flatMap, List.mem_map]
  constructor
  · rintro ⟨_, ⟨way, hway, other, hother, rfl⟩, hreads⟩
    rw [List.map_append, Path.reads_append_iff] at hreads
    obtain ⟨lead, left, made, others, rfl, rfl, hlead, hleft⟩ := hreads
    exact ⟨lead, left, made, others, rfl, rfl, ⟨way, hway, hlead⟩, other, hother, hleft⟩
  · rintro ⟨lead, left, made, others, rfl, rfl, ⟨way, hway, hlead⟩, other, hother, hleft⟩
    refine ⟨way ++ other, ⟨way, hway, other, hother, rfl⟩, ?_⟩
    rw [List.map_append, Path.reads_append_iff]
    exact ⟨lead, left, made, others, rfl, rfl, hlead, hleft⟩

theorem reads_choice_iff : (choice first second).Reads input captures ↔
    first.Reads input captures ∨ second.Reads input captures := by
  simp only [Reads, ways, List.mem_append, or_and_right, exists_or]

/-- What may be skipped reads the empty text besides. -/
theorem reads_orSkip_iff {optional : Bool} : (shape.orSkip optional).Reads input captures ↔
    shape.Reads input captures ∨ optional = true ∧ input = [] ∧ captures = [] := by
  cases optional with
  | false => simp
  | true => simp [orSkip, reads_choice_iff, reads_skip_iff]

end Shape

namespace Node

mutual

/-- A node matches what the ways through its shape read. -/
theorem reads_iff {input : Text} {captures : List (Text × Text)} : {node : Node} →
    (node.Reads input captures ↔ (node.shape true).Reads input captures)
  | .literal id text => by
    rw [shape, Shape.reads_one_iff, Path.reads_fixed_iff]
    simp only [Path.reads_nil_iff]
    constructor
    · rintro ⟨⟩
      exact ⟨[], by simp, rfl, rfl⟩
    · rintro ⟨_, rfl, rfl, rfl⟩
      simpa using Reads.literal
  | .parameter id name optional => by
    rw [shape, Shape.reads_orSkip_iff, Shape.reads_one_iff, Path.reads_capture_iff]
    simp only [Path.reads_nil_iff]
    constructor
    · intro h
      cases h with
      | parameter hvalue => exact .inl ⟨input, [], [], by simp, rfl, hvalue, rfl, rfl⟩
      | skipParameter => exact .inr ⟨rfl, rfl, rfl⟩
    · rintro (⟨value, _, _, rfl, rfl, hvalue, rfl, rfl⟩ | ⟨hoptional, rfl, rfl⟩)
      · simpa using Reads.parameter hvalue
      · rw [Bool.true_and] at hoptional
        rw [hoptional]
        exact .skipParameter
  | .group id alternatives optional => by
    rw [shape, Shape.reads_orSkip_iff, ← exists_readsSequence_iff]
    constructor
    · intro h
      cases h with
      | group hmem hreads => exact .inl ⟨_, hmem, hreads⟩
      | skipGroup => exact .inr ⟨rfl, rfl, rfl⟩
    · rintro (⟨alternative, hmem, hreads⟩ | ⟨hoptional, rfl, rfl⟩)
      · exact .group hmem hreads
      · rw [Bool.true_and] at hoptional
        rw [hoptional]
        exact .skipGroup
  -- A separator outside a group matches nothing, and there is no way through it.
  | .separator id => iff_of_false nofun Shape.not_reads_nothing

/-- A sequence matches what the ways through its shape read. -/
theorem readsSequence_iff {input : Text} {captures : List (Text × Text)} : {nodes : List Node} →
    (ReadsSequence nodes input captures ↔ (shapeOfSequence true nodes).Reads input captures)
  | [] => by
    rw [shapeOfSequence, Shape.reads_skip_iff]
    constructor
    · rintro ⟨⟩
      exact ⟨rfl, rfl⟩
    · rintro ⟨rfl, rfl⟩
      exact .nil
  | node :: rest => by
    rw [shapeOfSequence, Shape.reads_join_iff]
    constructor
    · rintro (_ | ⟨hnode, hrest⟩)
      exact ⟨_, _, _, _, rfl, rfl, reads_iff.1 hnode, readsSequence_iff.1 hrest⟩
    · rintro ⟨lead, left, made, others, rfl, rfl, hnode, hrest⟩
      exact .cons (reads_iff.2 hnode) (readsSequence_iff.2 hrest)

/-- One of the alternatives matches just if a way through one of them reads the input. -/
theorem exists_readsSequence_iff {input : Text} {captures : List (Text × Text)} :
    {alternatives : List (List Node)} →
    ((∃ alternative ∈ alternatives, ReadsSequence alternative input captures) ↔
      (shapeOfAll true alternatives).Reads input captures)
  | [] => by simp [shapeOfAll, Shape.not_reads_nothing]
  | alternative :: rest => by
    rw [shapeOfAll, Shape.reads_choice_iff, ← exists_readsSequence_iff, ← readsSequence_iff]
    simp

end

/-- What two sequences match one behind the other. -/
theorem readsSequence_append_iff {first second : List Node} {input : Text}
    {captures : List (Text × Text)} : ReadsSequence (first ++ second) input captures ↔
      ∃ lead left made others, input = lead ++ left ∧ captures = made ++ others ∧
        ReadsSequence first lead made ∧ ReadsSequence second left others := by
  induction first generalizing input captures with
  | nil =>
    constructor
    · intro h
      exact ⟨[], input, [], captures, rfl, rfl, .nil, h⟩
    · rintro ⟨_, left, _, others, rfl, rfl, ⟨⟩, hsecond⟩
      exact hsecond
  | cons node first ih =>
    constructor
    · rintro (_ | ⟨hnode, hrest⟩)
      obtain ⟨lead, left, made, others, rfl, rfl, hfirst, hsecond⟩ := ih.1 hrest
      exact ⟨_, left, _, others, (List.append_assoc ..).symm, (List.append_assoc ..).symm,
        .cons hnode hfirst, hsecond⟩
    · rintro ⟨_, left, _, others, rfl, rfl, _ | ⟨hnode, hfirst⟩, hsecond⟩
      rw [List.append_assoc, List.append_assoc]
      exact .cons hnode (ih.2 ⟨_, _, _, _, rfl, rfl, hfirst, hsecond⟩)

mutual

/-- What a node captures has the name of a parameter in it. -/
theorem Reads.exists_parameter {node : Node} {input : Text} {captures : List (Text × Text)}
    {capture : Text × Text} : node.Reads input captures → capture ∈ captures →
      ∃ id optional, parameter id capture.1 optional ∈ node.members
  | .literal, h => absurd h List.not_mem_nil
  | .parameter _, h => by
    obtain rfl := List.mem_singleton.1 h
    exact ⟨_, _, List.mem_singleton_self _⟩
  | .group hmem hreads, h => by
    obtain ⟨id, optional, hown⟩ := hreads.exists_parameter h
    refine ⟨id, optional, List.mem_cons_of_mem _ ?_⟩
    rw [membersOfAll_eq_flatMap]
    exact List.mem_flatMap.2 ⟨_, hmem, hown⟩
  | .skipParameter, h => absurd h List.not_mem_nil
  | .skipGroup, h => absurd h List.not_mem_nil

theorem ReadsSequence.exists_parameter {nodes : List Node} {input : Text}
    {captures : List (Text × Text)} {capture : Text × Text} :
    ReadsSequence nodes input captures → capture ∈ captures →
      ∃ id optional, parameter id capture.1 optional ∈ membersOfSequence nodes
  | .nil, h => absurd h List.not_mem_nil
  | .cons hnode hrest, h => by
    rcases List.mem_append.1 h with h | h
    · obtain ⟨id, optional, hown⟩ := hnode.exists_parameter h
      exact ⟨id, optional, List.mem_append_left _ hown⟩
    · obtain ⟨id, optional, hown⟩ := hrest.exists_parameter h
      exact ⟨id, optional, List.mem_append_right _ hown⟩

end

end Node

end RoutePattern
