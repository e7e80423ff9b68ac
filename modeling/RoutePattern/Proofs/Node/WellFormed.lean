import Mathlib.Data.List.Chain
import RoutePattern.Proofs.Node.Rendering

/-!
# Well-formed trees

Not every tree is that of a pattern: two literals side by side are spelled like one, and an empty
literal beside another node is not spelled at all. `WellFormedSequence` says what is needed besides
names that can be spelled. Such a tree stands for a derivation (`outline_segmentsOfSequence`) in
which no name goes on behind its end (`namesEndSequence_of_wellFormed`), so its rendered text is
read as the tree again, whatever ids it had (`exists_parse_renderSequence`). No other tree is read
back (`wellFormedSequence_of_parse_renderSequence`).
-/

namespace RoutePattern

namespace Node

/-- The first node may stand right before the second one: two literals would be read as one, and the
name of a parameter without a mark would go on with the text behind it. -/
def MayPrecede : Node → Node → Prop
  | literal .., literal .. => False
  | parameter _ _ false, literal _ (c :: _) => isNamePart c = false
  | _, _ => True

/-- The nodes of a sequence are told apart in its text: there is one, an empty literal is the only
one, and each may stand before the next. -/
structure IsSpaced (nodes : List Node) : Prop where
  nonempty : nodes ≠ []
  length_eq_one : ∀ id, literal id [] ∈ nodes → nodes.length = 1
  chain : nodes.IsChain MayPrecede

mutual

/-- The names in the node can be spelled, its sequences are spaced, and nothing is a separator. -/
def WellFormed : Node → Prop
  | literal .. => True
  | parameter _ name _ => IsName name
  | group _ alternatives _ => alternatives ≠ [] ∧ WellFormedAll alternatives
  | separator _ => False

/-- All nodes of a sequence are well formed. -/
def WellFormedNodes : List Node → Prop
  | [] => True
  | node :: rest => node.WellFormed ∧ WellFormedNodes rest

/-- All alternatives of a group are spaced, and their nodes are well formed. -/
def WellFormedAll : List (List Node) → Prop
  | [] => True
  | alternative :: rest => (IsSpaced alternative ∧ WellFormedNodes alternative) ∧ WellFormedAll rest

end

/-- A tree that a text can spell. -/
def WellFormedSequence (nodes : List Node) : Prop := IsSpaced nodes ∧ WellFormedNodes nodes

/-- Which node may stand before which does not depend on their ids. -/
theorem mayPrecede_unnumbered_right {node other : Node} :
    MayPrecede node other.unnumbered ↔ MayPrecede node other := by
  rcases node with _ | ⟨_, _, _ | _⟩ | _ | _ <;> rcases other with ⟨_, _ | _⟩ | _ | _ | _ <;> rfl

theorem mayPrecede_unnumbered_left {node other : Node} :
    MayPrecede node.unnumbered other ↔ MayPrecede node other := by
  rcases node with _ | ⟨_, _, _ | _⟩ | _ | _ <;> rcases other with ⟨_, _ | _⟩ | _ | _ | _ <;> rfl

theorem head?_unnumberedSequence (nodes : List Node) :
    (unnumberedSequence nodes).head? = nodes.head?.map unnumbered := by
  rw [unnumberedSequence_eq_map, List.head?_map]

/-! ## The derivation that a tree stands for -/

mutual

/-- The segments that the node stands for, all characters of literals behind a `\`. -/
def segments : Node → List Segment
  | literal _ text => text.map .escape
  | parameter _ name optional => [.parameter name optional]
  | group _ alternatives optional =>
    match segmentsOfAll alternatives with
    | [] => []
    | first :: others => [.group first others optional]
  | separator _ => []

/-- The segments that the sequence stands for. -/
def segmentsOfSequence : List Node → List Segment
  | [] => []
  | node :: rest => node.segments ++ segmentsOfSequence rest

/-- The segments that each alternative stands for. -/
def segmentsOfAll : List (List Node) → List (List Segment)
  | [] => []
  | alternative :: rest => segmentsOfSequence alternative :: segmentsOfAll rest

end

theorem exists_segments_group {alternatives : List (List Node)} (h : alternatives ≠ []) (id : Nat)
    (optional : Bool) : ∃ first others, segmentsOfAll alternatives = first :: others ∧
      (group id alternatives optional).segments = [.group first others optional] := by
  cases alternatives with
  | nil => exact absurd rfl h
  | cons alternative rest => exact ⟨_, _, rfl, rfl⟩

/-- A character before nodes that do not begin with a literal. -/
theorem joinChar_of_head? {nodes : List Node} (h : ∀ id text, literal id text ∉ nodes.head?)
    (c : Char) : Segment.joinChar c nodes = literal 0 [c] :: nodes := by
  rcases nodes with _ | ⟨⟨id, text⟩ | _ | _ | _, rest⟩
  · rfl
  · exact absurd rfl (h id text)
  · rfl
  · rfl
  · rfl

/-- The segments of a literal before those of nodes that do not begin with one. -/
theorem outlineSequence_map_escape {text : Text} (hne : text ≠ []) {rest : List Segment}
    (hapart : ∀ id more, literal id more ∉ (Segment.outlineSequence rest).head?) :
    Segment.outlineSequence (text.map .escape ++ rest) =
      literal 0 text :: Segment.outlineSequence rest := by
  induction text with
  | nil => exact absurd rfl hne
  | cons c text ih =>
    cases text with
    -- The last character begins the literal, and those before it join in.
    | nil => exact joinChar_of_head? hapart c
    | cons d text =>
      rw [List.map_cons, List.cons_append, Segment.outlineSequence, ih (List.cons_ne_nil d text)]
      rfl

/-- A spaced sequence is one empty literal, which stands for no segments, or has none. -/
theorem outline_of_isSpaced {nodes : List Node} (h : IsSpaced nodes)
    (houtline : (∀ id, literal id [] ∉ nodes) →
      Segment.outlineSequence (segmentsOfSequence nodes) = unnumberedSequence nodes) :
    Segment.outline (segmentsOfSequence nodes) = unnumberedSequence nodes := by
  by_cases hempty : ∃ id, literal id [] ∈ nodes
  · obtain ⟨id, hid⟩ := hempty
    obtain ⟨node, rfl⟩ := List.length_eq_one_iff.1 (h.length_eq_one id hid)
    obtain rfl := List.mem_singleton.1 hid
    rfl
  · rw [Segment.outline, houtline fun id hid => hempty ⟨id, hid⟩]
    cases nodes with
    | nil => exact absurd rfl h.nonempty
    | cons node rest => rfl

mutual

/-- The segments of a node outline the node again, if what stands behind it may. -/
theorem outlineSequence_segments : {node : Node} → node.WellFormed →
    (∀ id, node ≠ literal id []) → {rest : List Segment} →
    (∀ other ∈ (Segment.outlineSequence rest).head?, node.MayPrecede other) →
    Segment.outlineSequence (node.segments ++ rest) =
      node.unnumbered :: Segment.outlineSequence rest
  | literal id text, _, hfull, rest, hnext => by
    have hne : text ≠ [] := fun htext => hfull id (htext ▸ rfl)
    exact outlineSequence_map_escape hne fun _ _ hhead => hnext _ hhead
  | parameter id name optional, _, _, rest, _ => rfl
  | group id alternatives optional, h, _, rest, _ => by
    obtain ⟨first, others, hall, hgroup⟩ := exists_segments_group h.1 id optional
    have houtline := outlineAll_segmentsOfAll h.2
    rw [hall] at houtline
    rw [hgroup, unnumbered, ← houtline]
    rfl
  | separator _, h, _, _, _ => False.elim h

theorem outlineSequence_segmentsOfSequence : {nodes : List Node} → WellFormedNodes nodes →
    (∀ id, literal id [] ∉ nodes) → nodes.IsChain MayPrecede →
    Segment.outlineSequence (segmentsOfSequence nodes) = unnumberedSequence nodes
  | [], _, _, _ => rfl
  | node :: rest, h, hfull, hchain => by
    obtain ⟨hnext, hchain⟩ := List.isChain_cons.1 hchain
    have hrest := outlineSequence_segmentsOfSequence h.2
      (fun id hid => hfull id (List.mem_cons_of_mem _ hid)) hchain
    rw [segmentsOfSequence, outlineSequence_segments h.1, hrest, unnumberedSequence]
    · rintro id rfl
      exact hfull id List.mem_cons_self
    · rw [hrest, head?_unnumberedSequence]
      intro other hother
      obtain ⟨own, hown, rfl⟩ := Option.map_eq_some_iff.1 hother
      exact mayPrecede_unnumbered_right.2 (hnext own hown)

theorem outlineAll_segmentsOfAll : {alternatives : List (List Node)} →
    WellFormedAll alternatives →
    Segment.outlineAll (segmentsOfAll alternatives) = unnumberedAll alternatives
  | [], _ => rfl
  | alternative :: rest, h => by
    have halternative := outline_of_isSpaced h.1.1 fun hfull =>
      outlineSequence_segmentsOfSequence h.1.2 hfull h.1.1.chain
    rw [Segment.outline] at halternative
    rw [segmentsOfAll, Segment.outlineAll, halternative, outlineAll_segmentsOfAll h.2,
      unnumberedAll]

end

/-- The segments that a well-formed tree stands for outline this tree. -/
theorem outline_segmentsOfSequence {nodes : List Node} (h : WellFormedSequence nodes) :
    Segment.outline (segmentsOfSequence nodes) = unnumberedSequence nodes :=
  outline_of_isSpaced h.1 fun hfull => outlineSequence_segmentsOfSequence h.2 hfull h.1.chain

/-! ## It is proper -/

theorem isProperSequence_append {segments others : List Segment} :
    Segment.IsProperSequence (segments ++ others) ↔
      Segment.IsProperSequence segments ∧ Segment.IsProperSequence others := by
  induction segments with
  | nil => simp [Segment.IsProperSequence]
  | cons segment segments ih => simp [Segment.IsProperSequence, ih, and_assoc]

theorem isProperSequence_map_escape (text : Text) :
    Segment.IsProperSequence (text.map .escape) := by
  induction text with
  | nil => trivial
  | cons c text ih => exact ⟨trivial, ih⟩

mutual

/-- A well-formed node stands for segments whose names can be spelled. -/
theorem isProperSequence_segments : {node : Node} → node.WellFormed →
    Segment.IsProperSequence node.segments
  | literal _ text, _ => isProperSequence_map_escape text
  | parameter _ _ _, h => ⟨h, trivial⟩
  | group id alternatives optional, h => by
    obtain ⟨first, others, hall, hgroup⟩ := exists_segments_group h.1 id optional
    have hproper := isProperAll_segmentsOfAll h.2
    rw [hall] at hproper
    rw [hgroup]
    exact ⟨hproper, trivial⟩
  | separator _, h => False.elim h

theorem isProperSequence_segmentsOfSequence : {nodes : List Node} → WellFormedNodes nodes →
    Segment.IsProperSequence (segmentsOfSequence nodes)
  | [], _ => trivial
  | _ :: _, h => isProperSequence_append.2
    ⟨isProperSequence_segments h.1, isProperSequence_segmentsOfSequence h.2⟩

theorem isProperAll_segmentsOfAll : {alternatives : List (List Node)} →
    WellFormedAll alternatives → Segment.IsProperAll (segmentsOfAll alternatives)
  | [], _ => trivial
  | _ :: _, h => ⟨isProperSequence_segmentsOfSequence h.1.2, isProperAll_segmentsOfAll h.2⟩

end

/-! ## Its names end -/

/-- A name does not go on in a node that may stand behind it. -/
theorem not_goesOn_of_mayPrecede {node : Node} {rest : List Node}
    (h : ∀ other ∈ rest.head?, node.MayPrecede other) : (node.isBare && goesOn rest) = false := by
  cases rest with
  | nil => exact Bool.and_false _
  | cons other rest =>
    have hnext := h other rfl
    rcases node with _ | ⟨_, _, _ | _⟩ | _ | _ <;> rcases other with ⟨_, _ | _⟩ | _ | _ | _
    all_goals first | rfl | exact hnext

mutual

/-- In a well-formed node no name goes on behind its end. -/
theorem namesEnd_of_wellFormed : {node : Node} → node.WellFormed → node.namesEnd = true
  | literal .., _ => rfl
  | parameter .., _ => rfl
  | group _ _ _, h => namesEndAll_of_wellFormed h.2
  | separator _, _ => rfl

theorem namesEndSequence_of_wellFormed : {nodes : List Node} → WellFormedNodes nodes →
    nodes.IsChain MayPrecede → namesEndSequence nodes = true
  | [], _, _ => rfl
  | _ :: _, h, hchain => by
    obtain ⟨hnext, hchain⟩ := List.isChain_cons.1 hchain
    rw [namesEndSequence, namesEnd_of_wellFormed h.1, not_goesOn_of_mayPrecede hnext,
      namesEndSequence_of_wellFormed h.2 hchain]
    rfl

theorem namesEndAll_of_wellFormed : {alternatives : List (List Node)} →
    WellFormedAll alternatives → namesEndAll alternatives = true
  | [], _ => rfl
  | _ :: _, h => by
    rw [namesEndAll, namesEndSequence_of_wellFormed h.1.2 h.1.1.chain,
      namesEndAll_of_wellFormed h.2]
    rfl

end

end Node

open Node Segment

/-- The rendered text of a well-formed tree derives from the segments that the tree stands for. -/
theorem derives_renderSequence {nodes : List Node} (h : WellFormedSequence nodes) :
    Derives (plainSequence (segmentsOfSequence nodes)) (renderSequence nodes) where
  proper := isProperSequence_plain (isProperSequence_segmentsOfSequence h.2)
  greedy := by
    rw [isGreedySequence_plain, ← namesEndSequence_orEmptyLiteral, ← outline,
      outline_segmentsOfSequence h, namesEndSequence_unnumbered]
    exact namesEndSequence_of_wellFormed h.2 h.1.chain
  spell := by
    rw [← renderSequence_unnumbered, ← outline_segmentsOfSequence h, outline,
      renderSequence_orEmptyLiteral, renderSequence_outlineSequence]

/-- A well-formed tree whose rendered text is not too long is read from that text, whatever its ids
were. -/
theorem exists_parse_renderSequence {nodes : List Node} (h : WellFormedSequence nodes)
    (hshort : (renderSequence nodes).byteLength ≤ maxPatternLength) :
    ∃ tree, parse (renderSequence nodes) = .ok tree ∧
      unnumberedSequence tree = unnumberedSequence nodes := by
  have hderives := derives_renderSequence h
  have hsequence := isSequence_iff_exists_derives.2 ⟨_, hderives⟩
  obtain ⟨tree, htree⟩ := exists_parse_eq_ok_iff.2 ⟨hshort, hsequence⟩
  have hread := readTree_of_parse htree
  rw [readTree_of_derives hderives, Draft.addSequence_plain] at hread
  obtain rfl := Except.ok.inj hread
  exact ⟨_, htree, (Draft.unnumberedSequence_addSequence _).trans (outline_segmentsOfSequence h)⟩

/-- A tree with the ids of no pattern, in which the `?` of a literal stands behind a parameter and a
bracket behind a character. -/
def spelledTree : List Node :=
  [.parameter 9 ['a'] false, .literal 0 ['?', 'b'],
    .group 9 [[.literal 0 []], [.parameter 1 ['_', '1'] true, .literal 1 ['x', ')']]] false]

theorem parse_renderSequence_spelledTree : WellFormedSequence spelledTree ∧
    renderSequence spelledTree =
      [':', 'a', '\\', '?', 'b', '(', '|', ':', '_', '1', '?', 'x', '\\', ')', ')'] ∧
    ∃ tree, parse (renderSequence spelledTree) = .ok tree ∧
      unnumberedSequence tree = unnumberedSequence spelledTree := by
  have hfirst : IsName ['a'] := ⟨'a', [], rfl, rfl, nofun⟩
  have hsecond : IsName ['_', '1'] := ⟨'_', ['1'], rfl, rfl, List.forall_mem_singleton.2 rfl⟩
  have hempty : IsSpaced [.literal 0 []] := ⟨List.cons_ne_nil _ _, fun _ _ => rfl, .singleton _⟩
  have hmarked : IsSpaced [.parameter 1 ['_', '1'] true, .literal 1 ['x', ')']] :=
    ⟨List.cons_ne_nil _ _, by simp, .cons_cons trivial (.singleton _)⟩
  have hwhole : IsSpaced spelledTree :=
    ⟨List.cons_ne_nil _ _, by simp [spelledTree],
      .cons_cons (rfl : isNamePart '?' = false) (.cons_cons trivial (.singleton _))⟩
  have hgroup : WellFormedAll
      [[.literal 0 []], [.parameter 1 ['_', '1'] true, .literal 1 ['x', ')']]] :=
    ⟨⟨hempty, trivial, trivial⟩, ⟨hmarked, hsecond, trivial, trivial⟩, trivial⟩
  have hformed : WellFormedSequence spelledTree :=
    ⟨hwhole, hfirst, trivial, ⟨List.cons_ne_nil _ _, hgroup⟩, trivial⟩
  exact ⟨hformed, rfl, exists_parse_renderSequence hformed (by decide)⟩

/-! ## No other tree is read back -/

namespace Node

/-- A sequence is spaced if it is so without its ids. -/
theorem isSpaced_of_unnumberedSequence {nodes : List Node}
    (h : IsSpaced (unnumberedSequence nodes)) : IsSpaced nodes := by
  obtain ⟨hne, hlength, hchain⟩ := h
  rw [unnumberedSequence_eq_map] at hne hlength hchain
  refine ⟨fun hnil => hne (List.map_eq_nil_iff.2 hnil), fun id hid => ?_, ?_⟩
  · have hempty : literal 0 [] ∈ nodes.map unnumbered := List.mem_map.2 ⟨_, hid, rfl⟩
    rw [← List.length_map (f := unnumbered), hlength 0 hempty]
  · exact ((List.isChain_map unnumbered).1 hchain).imp fun node other hnext =>
      mayPrecede_unnumbered_left.1 (mayPrecede_unnumbered_right.1 hnext)

mutual

/-- A node is well formed if it is so without its ids. -/
theorem wellFormed_of_unnumbered : {node : Node} → node.unnumbered.WellFormed → node.WellFormed
  | literal .., _ => trivial
  | parameter .., h => h
  | group _ [] _, h => h
  | group _ (_ :: _) _, h => ⟨List.cons_ne_nil _ _, wellFormedAll_of_unnumberedAll h.2⟩
  | separator _, h => h

theorem wellFormedNodes_of_unnumberedSequence : {nodes : List Node} →
    WellFormedNodes (unnumberedSequence nodes) → WellFormedNodes nodes
  | [], _ => trivial
  | _ :: _, h => ⟨wellFormed_of_unnumbered h.1, wellFormedNodes_of_unnumberedSequence h.2⟩

theorem wellFormedAll_of_unnumberedAll : {alternatives : List (List Node)} →
    WellFormedAll (unnumberedAll alternatives) → WellFormedAll alternatives
  | [], _ => trivial
  | _ :: _, h =>
    ⟨⟨isSpaced_of_unnumberedSequence h.1.1, wellFormedNodes_of_unnumberedSequence h.1.2⟩,
      wellFormedAll_of_unnumberedAll h.2⟩

end

/-- The nodes are well formed and told apart, and none is an empty literal. -/
structure IsApart (nodes : List Node) : Prop where
  notMem : ∀ id, literal id [] ∉ nodes
  chain : nodes.IsChain MayPrecede
  wellFormed : WellFormedNodes nodes

namespace IsApart

variable {nodes : List Node}

theorem cons (h : IsApart nodes) {node : Node} (hnode : node.WellFormed)
    (hfull : ∀ id, node ≠ literal id []) (hnext : ∀ other ∈ nodes.head?, MayPrecede node other) :
    IsApart (node :: nodes) := by
  refine ⟨fun id hid => ?_, List.isChain_cons.2 ⟨hnext, h.chain⟩, hnode, h.wellFormed⟩
  rcases List.mem_cons.1 hid with heq | hid
  · exact hfull id heq.symm
  · exact h.notMem id hid

/-- A character in front joins the literal there or becomes one of its own. -/
theorem joinChar (h : IsApart nodes) (c : Char) : IsApart (Segment.joinChar c nodes) := by
  by_cases hliteral : ∃ id text, literal id text ∈ nodes.head?
  · obtain ⟨id, text, hhead⟩ := hliteral
    obtain ⟨rest, rfl⟩ := List.head?_eq_some_iff.1 hhead
    obtain ⟨hnext, hchain⟩ := List.isChain_cons.1 h.chain
    have hrest : IsApart rest :=
      ⟨fun id hid => h.notMem id (List.mem_cons_of_mem _ hid), hchain, h.wellFormed.2⟩
    refine hrest.cons trivial nofun fun other hother => ?_
    -- What may stand behind a literal does not depend on its text.
    have hbehind := hnext other hother
    rcases other with _ | _ | _ | _
    · exact hbehind
    all_goals trivial
  · have hapart : ∀ id text, literal id text ∉ nodes.head? :=
      fun id text hhead => hliteral ⟨id, text, hhead⟩
    rw [joinChar_of_head? hapart]
    refine h.cons trivial nofun fun other hother => ?_
    rcases other with ⟨id, text⟩ | _ | _ | _
    · exact absurd hother (hapart id text)
    all_goals trivial

/-- An empty sequence becomes an empty literal, and any other is spaced already. -/
theorem orEmptyLiteral (h : IsApart nodes) : WellFormedSequence (Segment.orEmptyLiteral nodes) := by
  cases nodes with
  | nil => exact ⟨⟨List.cons_ne_nil _ _, fun _ _ => rfl, .singleton _⟩, trivial, trivial⟩
  | cons node rest =>
    exact ⟨⟨List.cons_ne_nil _ _, fun id hid => absurd hid (h.notMem id), h.chain⟩, h.wellFormed⟩

end IsApart

theorem namesEndSequence_cons_iff {node : Node} {rest : List Node} :
    namesEndSequence (node :: rest) = true ↔ node.namesEnd = true ∧
      (node.isBare && goesOn rest) = false ∧ namesEndSequence rest = true := by
  rw [namesEndSequence, Bool.and_eq_true, Bool.and_eq_true, Bool.not_eq_true', and_assoc]

theorem mayPrecede_of_not_goesOn {node : Node} {rest : List Node}
    (hnode : ∀ id text, node ≠ literal id text) (h : (node.isBare && goesOn rest) = false) :
    ∀ other ∈ rest.head?, MayPrecede node other := by
  cases rest with
  | nil => exact nofun
  | cons other rest =>
    rintro _ ⟨⟩
    rcases node with ⟨id, text⟩ | ⟨_, _, _ | _⟩ | _ | _
    · exact absurd rfl (hnode id text)
    all_goals rcases other with ⟨_, _ | _⟩ | _ | _ | _
    all_goals first | exact h | trivial

end Node

namespace Segment

mutual

/-- A segment in front of nodes that are told apart is told apart from them as well, if its name
ends there. -/
theorem isApart_outlineBefore : {segment : Segment} → segment.IsProper → {following : List Node} →
    IsApart following → namesEndSequence (segment.outlineBefore following) = true →
    IsApart (segment.outlineBefore following)
  | char c, _, _, h, _ => h.joinChar c
  | escape c, _, _, h, _ => h.joinChar c
  | parameter name optional, hproper, following, h, hends =>
    h.cons hproper nofun (mayPrecede_of_not_goesOn nofun (namesEndSequence_cons_iff.1 hends).2.1)
  | group first others optional, hproper, following, h, hends => by
    obtain ⟨hinside, -, -⟩ := namesEndSequence_cons_iff.1 hends
    obtain ⟨hfirst, hothers⟩ := Bool.and_eq_true_iff.1 hinside
    rw [namesEndSequence_orEmptyLiteral] at hfirst
    have hall : WellFormedAll (orEmptyLiteral (outlineSequence first) :: outlineAll others) :=
      ⟨(isApart_outlineSequence hproper.1 hfirst).orEmptyLiteral,
        wellFormedAll_outlineAll hproper.2 hothers⟩
    -- A group is not bare, so anything may follow it.
    exact h.cons ⟨List.cons_ne_nil _ _, hall⟩ nofun (mayPrecede_of_not_goesOn nofun rfl)

theorem isApart_outlineSequence : {segments : List Segment} → IsProperSequence segments →
    namesEndSequence (outlineSequence segments) = true → IsApart (outlineSequence segments)
  | [], _, _ => ⟨nofun, .nil, trivial⟩
  | segment :: rest, h, hends =>
    have hrest := ((isGreedySequence_plain_cons segment rest).2 hends).2.2
    isApart_outlineBefore h.1 (isApart_outlineSequence h.2 hrest) hends

theorem wellFormedAll_outlineAll : {others : List (List Segment)} → IsProperAll others →
    namesEndAll (outlineAll others) = true → WellFormedAll (outlineAll others)
  | [], _, _ => trivial
  | alternative :: rest, h, hends => by
    obtain ⟨halternative, hrest⟩ := Bool.and_eq_true_iff.1 hends
    rw [namesEndSequence_orEmptyLiteral] at halternative
    exact ⟨(isApart_outlineSequence h.1 halternative).orEmptyLiteral,
      wellFormedAll_outlineAll h.2 hrest⟩

end

end Segment

/-- A tree that is read from its rendered text, whatever its ids, is well formed. -/
theorem wellFormedSequence_of_parse_renderSequence {nodes tree : List Node}
    (hparse : parse (renderSequence nodes) = .ok tree)
    (hsame : unnumberedSequence tree = unnumberedSequence nodes) : WellFormedSequence nodes := by
  have hrender : renderSequence tree = renderSequence nodes := by
    rw [← renderSequence_unnumbered tree, hsame, renderSequence_unnumbered]
  rw [← hrender] at hparse
  obtain ⟨segments, h⟩ := exists_derives (exists_parse_eq_ok_iff.1 ⟨_, hparse⟩).2
  have hread := readTree_of_parse hparse
  have houtline := unnumbered_of_readTree h hread
  have hends := namesEndSequence_of_readTree_renderSequence h hread
  rw [← namesEndSequence_unnumbered, houtline, outline, namesEndSequence_orEmptyLiteral] at hends
  have hformed := (isApart_outlineSequence h.proper hends).orEmptyLiteral
  rw [← outline, ← houtline, hsame] at hformed
  exact ⟨isSpaced_of_unnumberedSequence hformed.1, wellFormedNodes_of_unnumberedSequence hformed.2⟩

end RoutePattern
