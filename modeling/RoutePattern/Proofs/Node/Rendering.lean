import RoutePattern.Proofs.Node.Outline

/-!
# Trees rendered and read again

A tree that was read is rendered as its derivation with a `\` before the special characters of
literals and no others (`renderSequence_of_derives`). This derivation stands for the same nodes with
the same ids, but it need not be greedy: `:a\b` is a parameter before a literal, and rendered as
`:ab`. So the rendered tree is read back if no parameter without a mark stands before text that its
name could go on with, and only then (`parse_renderSequence_eq_iff`).
-/

namespace RoutePattern

/-! ## Names that end where they are rendered -/

namespace Node

/-- The sequence begins with a character that a name could go on with. -/
def goesOn : List Node → Bool
  | literal _ (c :: _) :: _ => isNamePart c
  | _ => false

/-- The node is a parameter without a mark. -/
def isBare : Node → Bool
  | parameter _ _ optional => !optional
  | _ => false

mutual

/-- Inside the node, no parameter without a mark stands before text that its name could go on
with. -/
def namesEnd : Node → Bool
  | group _ alternatives _ => namesEndAll alternatives
  | _ => true

/-- In the sequence, no parameter without a mark stands before text that its name could go on
with. -/
def namesEndSequence : List Node → Bool
  | [] => true
  | node :: rest => node.namesEnd && !(node.isBare && goesOn rest) && namesEndSequence rest

/-- The same for all alternatives of a group. -/
def namesEndAll : List (List Node) → Bool
  | [] => true
  | alternative :: rest => namesEndSequence alternative && namesEndAll rest

end

/-! ## Rendering does not look at ids -/

theorem goesOn_unnumbered (nodes : List Node) :
    goesOn (unnumberedSequence nodes) = goesOn nodes := by
  rcases nodes with _ | ⟨⟨_, _ | _⟩ | _ | _ | _, nodes⟩ <;> rfl

theorem isBare_unnumbered (node : Node) : node.unnumbered.isBare = node.isBare := by
  cases node <;> rfl

mutual

/-- Whether names end where they are rendered does not depend on ids. -/
theorem namesEnd_unnumbered : (node : Node) → node.unnumbered.namesEnd = node.namesEnd
  | literal .. => rfl
  | parameter .. => rfl
  | group _ alternatives _ => namesEndAll_unnumbered alternatives
  | separator _ => rfl

theorem namesEndSequence_unnumbered : (nodes : List Node) →
    namesEndSequence (unnumberedSequence nodes) = namesEndSequence nodes
  | [] => rfl
  | node :: rest => by
    rw [unnumberedSequence, namesEndSequence, namesEnd_unnumbered node, isBare_unnumbered,
      goesOn_unnumbered, namesEndSequence_unnumbered rest, namesEndSequence]

theorem namesEndAll_unnumbered : (alternatives : List (List Node)) →
    namesEndAll (unnumberedAll alternatives) = namesEndAll alternatives
  | [] => rfl
  | alternative :: rest => by
    rw [unnumberedAll, namesEndAll, namesEndSequence_unnumbered alternative,
      namesEndAll_unnumbered rest, namesEndAll]

end

/-- The alternatives behind the first one, each with its `|`. -/
theorem renderAlternatives_cons (first : List Node) (rest : List (List Node)) :
    renderAlternatives (first :: rest) =
      renderSequence first ++
        rest.flatMap fun alternative => '|' :: renderSequence alternative := by
  induction rest generalizing first with
  | nil => simp [renderAlternatives]
  | cons second rest ih =>
    rw [renderAlternatives, ih, List.flatMap_cons, List.cons_append]
    exact List.cons_ne_nil _ _

mutual

/-- Nor does the text of a node. -/
theorem render_unnumbered : (node : Node) → node.unnumbered.render = node.render
  | literal .. => rfl
  | parameter .. => rfl
  | group _ [] _ => rfl
  | group _ (first :: rest) _ => by
    rw [unnumbered, render, render, unnumberedAll, renderAlternatives_cons,
      renderSequence_unnumbered first, flatMap_render_unnumberedAll rest, renderAlternatives_cons]
  | separator _ => rfl

theorem renderSequence_unnumbered : (nodes : List Node) →
    renderSequence (unnumberedSequence nodes) = renderSequence nodes
  | [] => rfl
  | node :: rest => by
    rw [unnumberedSequence, renderSequence, render_unnumbered node, renderSequence_unnumbered rest,
      renderSequence]

theorem flatMap_render_unnumberedAll : (alternatives : List (List Node)) →
    ((unnumberedAll alternatives).flatMap fun alternative => '|' :: renderSequence alternative) =
      alternatives.flatMap fun alternative => '|' :: renderSequence alternative
  | [] => rfl
  | alternative :: rest => by
    rw [unnumberedAll, List.flatMap_cons, renderSequence_unnumbered alternative,
      flatMap_render_unnumberedAll rest, List.flatMap_cons]

end

end Node

open Node

/-! ## The derivation that is rendered -/

namespace Segment

/-- A character of a literal as it is rendered. -/
def ofChar (c : Char) : Segment := if isSpecial c then escape c else char c

mutual

/-- The segment with a `\` before the special characters of literals and no others. -/
def plain : Segment → Segment
  | char c => ofChar c
  | escape c => ofChar c
  | parameter name optional => parameter name optional
  | group first others optional => group (plainSequence first) (plainAll others) optional

/-- The sequence with a `\` before the special characters of literals and no others. -/
def plainSequence : List Segment → List Segment
  | [] => []
  | segment :: rest => segment.plain :: plainSequence rest

/-- The alternatives with a `\` before the special characters of literals and no others. -/
def plainAll : List (List Segment) → List (List Segment)
  | [] => []
  | alternative :: rest => plainSequence alternative :: plainAll rest

end

/-- A character is rendered behind a `\` or alone. -/
theorem ofChar_cases (c : Char) :
    (isSpecial c = true ∧ ofChar c = escape c ∧ escapedChar c = ['\\', c]) ∨
      (isSpecial c = false ∧ ofChar c = char c ∧ escapedChar c = [c]) := by
  cases h : isSpecial c with
  | true => exact .inl ⟨rfl, by rw [ofChar, if_pos h], by rw [escapedChar, if_pos h]⟩
  | false => exact .inr ⟨rfl, by simp [ofChar, h], by simp [escapedChar, h]⟩

theorem spell_ofChar (c : Char) : (ofChar c).spell = escapedChar c := by
  rcases ofChar_cases c with ⟨-, hc, htext⟩ | ⟨-, hc, htext⟩
  · rw [hc, htext, spell]
  · rw [hc, htext, spell]

theorem not_isReserved_of_not_isSpecial {c : Char} (h : isSpecial c = false) :
    isReserved c = false := by
  simp only [isSpecial, Bool.or_eq_false_iff, beq_eq_false_iff_ne] at h
  simp [isReserved, h]

/-- No special character belongs to a name. -/
theorem not_isNamePart_of_isSpecial {c : Char} (h : isSpecial c = true) : isNamePart c = false := by
  simp only [isSpecial, Bool.or_eq_true, beq_iff_eq] at h
  rcases h with ((((rfl | rfl) | rfl) | rfl) | rfl) | rfl <;> rfl

theorem isProper_ofChar (c : Char) : (ofChar c).IsProper := by
  rcases ofChar_cases c with ⟨-, hc, -⟩ | ⟨hspecial, hc, -⟩
  · rw [hc]
    trivial
  · rw [hc]
    exact not_isReserved_of_not_isSpecial hspecial

mutual

/-- The segments that are rendered can be spelled if those of the derivation can. -/
theorem isProper_plain : {segment : Segment} → segment.IsProper → segment.plain.IsProper
  | char c, _ => isProper_ofChar c
  | escape c, _ => isProper_ofChar c
  | parameter _ _, h => h
  | group _ _ _, h => ⟨isProperSequence_plain h.1, isProperAll_plain h.2⟩

theorem isProperSequence_plain : {segments : List Segment} → IsProperSequence segments →
    IsProperSequence (plainSequence segments)
  | [], _ => trivial
  | _ :: _, h => ⟨isProper_plain h.1, isProperSequence_plain h.2⟩

theorem isProperAll_plain : {others : List (List Segment)} → IsProperAll others →
    IsProperAll (plainAll others)
  | [], _ => trivial
  | _ :: _, h => ⟨isProperSequence_plain h.1, isProperAll_plain h.2⟩

end

/-! ## It is what is rendered -/

/-- A character in front of a tree is rendered in front of its text. -/
theorem renderSequence_joinChar (c : Char) (following : List Node) :
    renderSequence (joinChar c following) = (ofChar c).spell ++ renderSequence following := by
  rw [spell_ofChar]
  rcases following with _ | ⟨_ | _ | _ | _, rest⟩ <;>
    simp [joinChar, renderSequence, render, escaped]

theorem renderSequence_orEmptyLiteral (nodes : List Node) :
    renderSequence (orEmptyLiteral nodes) = renderSequence nodes := by
  cases nodes <;> rfl

mutual

/-- What a segment outlines is rendered as its plain form. -/
theorem renderSequence_outlineBefore (following : List Node) : (segment : Segment) →
    renderSequence (segment.outlineBefore following) =
      segment.plain.spell ++ renderSequence following
  | char c => renderSequence_joinChar c following
  | escape c => renderSequence_joinChar c following
  | parameter name optional => rfl
  | group first others optional => by
    simp [outlineBefore, renderSequence, render, renderAlternatives_cons,
      renderSequence_orEmptyLiteral, renderSequence_outlineSequence first,
      flatMap_render_outlineAll others, plain, spell]

/-- What a derivation outlines is rendered as its plain form. -/
theorem renderSequence_outlineSequence : (segments : List Segment) →
    renderSequence (outlineSequence segments) = spellSequence (plainSequence segments)
  | [] => rfl
  | segment :: rest => by
    rw [outlineSequence, renderSequence_outlineBefore, renderSequence_outlineSequence rest,
      plainSequence, spellSequence]

theorem flatMap_render_outlineAll : (others : List (List Segment)) →
    ((outlineAll others).flatMap fun alternative => '|' :: renderSequence alternative) =
      spellOthers (plainAll others)
  | [] => rfl
  | alternative :: rest => by
    rw [outlineAll, List.flatMap_cons, renderSequence_orEmptyLiteral,
      renderSequence_outlineSequence alternative, flatMap_render_outlineAll rest, plainAll,
      spellOthers, List.cons_append]

end

/-! ## When it is greedy -/

theorem namesEndSequence_joinChar (c : Char) (following : List Node) :
    namesEndSequence (joinChar c following) = namesEndSequence following := by
  rcases following with _ | ⟨_ | _ | _ | _, rest⟩ <;>
    simp [joinChar, namesEndSequence, namesEnd, isBare]

theorem namesEndSequence_orEmptyLiteral (nodes : List Node) :
    namesEndSequence (orEmptyLiteral nodes) = namesEndSequence nodes := by
  cases nodes <;> rfl

theorem goesOn_joinChar (c : Char) (following : List Node) :
    goesOn (joinChar c following) = isNamePart c := by
  rcases following with _ | ⟨_ | _ | _ | _, rest⟩ <;> rfl

/-- A rendered sequence never begins with a `?`, and it begins with a character that a name could go
on with if its nodes do. -/
theorem exists_spellSequence_plain (segment : Segment) (rest : List Segment) :
    ∃ c text, spellSequence (plainSequence (segment :: rest)) = c :: text ∧ c ≠ '?' ∧
      isNamePart c = goesOn (outlineSequence (segment :: rest)) := by
  have hchar (c : Char) : ∃ d text, spellSequence (ofChar c :: plainSequence rest) = d :: text ∧
      d ≠ '?' ∧ isNamePart d = goesOn (joinChar c (outlineSequence rest)) := by
    rw [spellSequence, spell_ofChar, goesOn_joinChar]
    -- What stands in front is the backslash of a special character, which no name goes on with.
    rcases ofChar_cases c with ⟨hspecial, -, htext⟩ | ⟨hspecial, -, htext⟩
    · rw [htext, not_isNamePart_of_isSpecial hspecial]
      exact ⟨'\\', _, rfl, by decide, rfl⟩
    · rw [htext]
      refine ⟨c, _, rfl, ?_, rfl⟩
      rintro rfl
      cases hspecial
  cases segment with
  | char c => exact hchar c
  | escape c => exact hchar c
  | parameter name optional => exact ⟨':', _, rfl, by decide, rfl⟩
  | group first others optional => exact ⟨'(', _, rfl, by decide, rfl⟩

/-- A parameter without a mark stops before rendered nodes that a name cannot go on with. -/
theorem stops_parameter_plain (name : Text) (segments : List Segment) :
    (parameter name false).Stops (spellSequence (plainSequence segments)) ↔
      goesOn (outlineSequence segments) = false := by
  cases segments with
  | nil => simp [plainSequence, spellSequence, Stops, outlineSequence, goesOn]
  | cons segment rest =>
    obtain ⟨c, text, htext, hmark, hpart⟩ := exists_spellSequence_plain segment rest
    rw [htext, ← hpart]
    exact and_iff_left hmark

/-- A group stops before all rendered nodes, since none of them begins with a `?`. -/
theorem stops_group_plain (first : List Segment) (others : List (List Segment)) (optional : Bool)
    (segments : List Segment) :
    (group first others optional).Stops (spellSequence (plainSequence segments)) := by
  cases optional with
  | true => trivial
  | false =>
    cases segments with
    | nil => trivial
    | cons segment rest =>
      obtain ⟨c, text, htext, hmark, -⟩ := exists_spellSequence_plain segment rest
      rw [htext]
      exact hmark

theorem isGreedy_ofChar (c : Char) : (ofChar c).IsGreedy := by
  rcases ofChar_cases c with ⟨-, hc, -⟩ | ⟨-, hc, -⟩ <;> rw [hc] <;> trivial

theorem stops_ofChar (c : Char) (text : Text) : (ofChar c).Stops text := by
  rcases ofChar_cases c with ⟨-, hc, -⟩ | ⟨-, hc, -⟩ <;> rw [hc] <;> trivial

mutual

/-- A segment before the rest of its sequence. -/
theorem isGreedySequence_plain_cons : (segment : Segment) → (rest : List Segment) →
    (segment.plain.IsGreedy ∧ segment.plain.Stops (spellSequence (plainSequence rest)) ∧
        namesEndSequence (outlineSequence rest) = true) ↔
      namesEndSequence (segment.outlineBefore (outlineSequence rest)) = true
  | char c, rest => by
    rw [outlineBefore, namesEndSequence_joinChar, plain, and_iff_right (isGreedy_ofChar c),
      and_iff_right (stops_ofChar c _)]
  | escape c, rest => by
    rw [outlineBefore, namesEndSequence_joinChar, plain, and_iff_right (isGreedy_ofChar c),
      and_iff_right (stops_ofChar c _)]
  | parameter name true, rest => by
    simp [plain, IsGreedy, Stops, outlineBefore, namesEndSequence, namesEnd, isBare]
  -- Only here does it matter what follows.
  | parameter name false, rest => by
    rw [plain, stops_parameter_plain]
    simp [IsGreedy, outlineBefore, namesEndSequence, namesEnd, isBare]
  | group first others optional, rest => by
    rw [plain, and_iff_right (stops_group_plain _ _ _ _), IsGreedy, isGreedySequence_plain first,
      isGreedyAll_plain others]
    simp [outlineBefore, namesEndSequence, namesEnd, namesEndAll, isBare,
      namesEndSequence_orEmptyLiteral]

/-- The plain form of a derivation is greedy if the names of its outline end where they are
rendered. -/
theorem isGreedySequence_plain : (segments : List Segment) →
    (IsGreedySequence (plainSequence segments) ↔
      namesEndSequence (outlineSequence segments) = true)
  | [] => by simp [plainSequence, IsGreedySequence, outlineSequence, namesEndSequence]
  | segment :: rest => by
    rw [plainSequence, IsGreedySequence, isGreedySequence_plain rest,
      isGreedySequence_plain_cons segment rest, outlineSequence]

theorem isGreedyAll_plain : (others : List (List Segment)) →
    (IsGreedyAll (plainAll others) ↔ namesEndAll (outlineAll others) = true)
  | [] => by simp [plainAll, IsGreedyAll, outlineAll, namesEndAll]
  | alternative :: rest => by
    rw [plainAll, IsGreedyAll, isGreedySequence_plain alternative, isGreedyAll_plain rest]
    simp [outlineAll, namesEndAll, namesEndSequence_orEmptyLiteral]

end

/-! ## When it is the derivation itself -/

mutual

/-- A segment and its plain form that begin the same text are the same segment. -/
theorem eq_plain_of_spell_append_eq : {segment : Segment} → {rest left : Text} →
    segment.IsProper → segment.plain.spell ++ rest = segment.spell ++ left →
    segment.plain = segment ∧ rest = left
  | char c, rest, left, hproper, h => by
    rw [plain] at h ⊢
    rcases ofChar_cases c with ⟨-, hc, -⟩ | ⟨-, hc, -⟩
    · -- A `?` of a literal gets a `\` that was not there.
      rw [hc] at h
      exact absurd (List.cons.inj h).1.symm (ne_of_isProper_char hproper rfl)
    · rw [hc] at h ⊢
      exact ⟨rfl, (List.cons.inj h).2⟩
  | escape c, rest, left, _, h => by
    rw [plain] at h ⊢
    rcases ofChar_cases c with ⟨-, hc, -⟩ | ⟨hspecial, hc, -⟩
    · rw [hc] at h ⊢
      exact ⟨rfl, List.append_cancel_left h⟩
    · -- The `\` that was there is left out, so the character behind it would have to be one.
      rw [hc] at h
      obtain rfl : c = '\\' := (List.cons.inj h).1
      cases hspecial
  | parameter name optional, rest, left, _, h => ⟨rfl, List.append_cancel_left h⟩
  | group first others optional, rest, left, hproper, h => by
    have htail : spellSequence (plainSequence first) ++
          (spellOthers (plainAll others) ++ ')' :: (optionalMark optional ++ rest)) =
        spellSequence first ++ (spellOthers others ++ ')' :: (optionalMark optional ++ left)) := by
      simpa [plain, spell] using h
    obtain ⟨hfirst, hmore⟩ := eq_plain_of_spellSequence_append_eq hproper.1 htail
    obtain ⟨hothers, hmarks⟩ := eq_plain_of_spellOthers_append_eq hproper.2 hmore
    rw [plain, hfirst, hothers]
    exact ⟨rfl, List.append_cancel_left (List.cons.inj hmarks).2⟩

theorem eq_plain_of_spellSequence_append_eq : {segments : List Segment} → {rest left : Text} →
    IsProperSequence segments →
    spellSequence (plainSequence segments) ++ rest = spellSequence segments ++ left →
    plainSequence segments = segments ∧ rest = left
  | [], _, _, _, h => ⟨rfl, h⟩
  | segment :: segments, rest, left, hproper, h => by
    rw [plainSequence, spellSequence, spellSequence, List.append_assoc, List.append_assoc] at h
    obtain ⟨hsegment, hmore⟩ := eq_plain_of_spell_append_eq hproper.1 h
    obtain ⟨hsegments, hleft⟩ := eq_plain_of_spellSequence_append_eq hproper.2 hmore
    rw [plainSequence, hsegment, hsegments]
    exact ⟨rfl, hleft⟩

theorem eq_plain_of_spellOthers_append_eq : {others : List (List Segment)} → {rest left : Text} →
    IsProperAll others → spellOthers (plainAll others) ++ rest = spellOthers others ++ left →
    plainAll others = others ∧ rest = left
  | [], _, _, _, h => ⟨rfl, h⟩
  | alternative :: others, rest, left, hproper, h => by
    have htail :
        spellSequence (plainSequence alternative) ++ (spellOthers (plainAll others) ++ rest) =
        spellSequence alternative ++ (spellOthers others ++ left) := by
      simpa [plainAll, spellOthers] using h
    obtain ⟨halternative, hmore⟩ := eq_plain_of_spellSequence_append_eq hproper.1 htail
    obtain ⟨hothers, hleft⟩ := eq_plain_of_spellOthers_append_eq hproper.2 hmore
    rw [plainAll, halternative, hothers]
    exact ⟨rfl, hleft⟩

end

end Segment

open Segment

/-! ## Its tree -/

namespace Draft

theorem addSegment_ofChar (draft : Draft) (c : Char) :
    draft.addSegment (ofChar c) = draft.addChar c := by
  rcases ofChar_cases c with ⟨-, hc, -⟩ | ⟨-, hc, -⟩ <;> rw [hc, addSegment]

mutual

/-- The plain form of a segment is read like the segment. -/
theorem addSegment_plain : (segment : Segment) → (draft : Draft) →
    draft.addSegment segment.plain = draft.addSegment segment
  | .char c, draft => addSegment_ofChar draft c
  | .escape c, draft => addSegment_ofChar draft c
  | .parameter _ _, _ => rfl
  | .group first others optional, draft => by
    rw [plain, addSegment, addSegment, addSequence_plain first, addOthers_plain others]

theorem addSequence_plain : (segments : List Segment) → (draft : Draft) →
    draft.addSequence (plainSequence segments) = draft.addSequence segments
  | [], _ => rfl
  | segment :: rest, draft => by
    rw [plainSequence, addSequence, addSegment_plain segment, addSequence_plain rest, addSequence]

theorem addOthers_plain : (others : List (List Segment)) → (lastId : Nat) →
    addOthers lastId (plainAll others) = addOthers lastId others
  | [], _ => rfl
  | alternative :: rest, lastId => by
    rw [plainAll, addOthers, addOthers, addSequence_plain alternative, addOthers_plain rest]

end

end Draft

/-! ## Patterns -/

/-- A pattern that is read is rendered as its greedy derivation, with a `\` before the special
characters of literals and no others. -/
theorem renderSequence_of_derives {segments : List Segment} {pattern : Text} {nodes : List Node}
    (h : Derives segments pattern) (hread : readTree pattern = .ok nodes) :
    renderSequence nodes = spellSequence (plainSequence segments) := by
  rw [← renderSequence_unnumbered, unnumbered_of_readTree h hread, outline,
    renderSequence_orEmptyLiteral, renderSequence_outlineSequence]

/-- The derivation that is rendered is greedy if the names of the tree end where they are
rendered. -/
theorem isGreedySequence_plain_of_derives {segments : List Segment} {pattern : Text}
    {nodes : List Node} (h : Derives segments pattern) (hread : readTree pattern = .ok nodes) :
    IsGreedySequence (plainSequence segments) ↔ namesEndSequence nodes = true := by
  rw [isGreedySequence_plain, ← namesEndSequence_unnumbered nodes, unnumbered_of_readTree h hread,
    outline, namesEndSequence_orEmptyLiteral]

/-- A tree is read back from its rendered text if its names end there. -/
theorem readTree_renderSequence {segments : List Segment} {pattern : Text} {nodes : List Node}
    (h : Derives segments pattern) (hread : readTree pattern = .ok nodes)
    (hends : namesEndSequence nodes = true) : readTree (renderSequence nodes) = .ok nodes := by
  have hplain : Derives (plainSequence segments) (renderSequence nodes) :=
    ⟨isProperSequence_plain h.proper, (isGreedySequence_plain_of_derives h hread).2 hends,
      (renderSequence_of_derives h hread).symm⟩
  rw [readTree_of_derives hplain, Draft.addSequence_plain, ← readTree_of_derives h, hread]

/-- A tree that is read from its own rendered text has names that end there. -/
theorem namesEndSequence_of_readTree_renderSequence {segments : List Segment} {nodes : List Node}
    (h : Derives segments (renderSequence nodes))
    (hread : readTree (renderSequence nodes) = .ok nodes) : namesEndSequence nodes = true := by
  have hspell : spellSequence (plainSequence segments) ++ [] = spellSequence segments ++ [] := by
    rw [← renderSequence_of_derives h hread, h.spell]
  obtain ⟨hplain, -⟩ := eq_plain_of_spellSequence_append_eq h.proper hspell
  rw [← isGreedySequence_plain_of_derives h hread, hplain]
  exact h.greedy

/-- The tree of a pattern, rendered, is a pattern again if it is not too long. It is read as the
same tree with the same ids if no parameter without a mark stands before text that its name could
go on with, and only then. -/
theorem parse_renderSequence_eq_iff {pattern : Text} {nodes : List Node}
    (hparse : parse pattern = .ok nodes)
    (hshort : (renderSequence nodes).byteLength ≤ maxPatternLength) :
    (∃ others, parse (renderSequence nodes) = .ok others) ∧
      (parse (renderSequence nodes) = .ok nodes ↔ namesEndSequence nodes = true) := by
  obtain ⟨segments, h⟩ := exists_derives (exists_parse_eq_ok_iff.1 ⟨nodes, hparse⟩).2
  have hread := readTree_of_parse hparse
  -- The rendered text is of the grammar even if its derivation is not greedy.
  have hsequence : IsSequence (renderSequence nodes) := by
    rw [renderSequence_of_derives h hread]
    exact isSequence_spell (isProperSequence_plain h.proper)
  refine ⟨exists_parse_eq_ok_iff.2 ⟨hshort, hsequence⟩, fun hsame => ?_, fun hends => ?_⟩
  · obtain ⟨others, hothers⟩ := exists_derives hsequence
    exact namesEndSequence_of_readTree_renderSequence hothers (readTree_of_parse hsame)
  · rw [parse, if_neg (Nat.not_lt.2 hshort), readTree_renderSequence h hread hends]

/-- The pattern `(:a|\?b)?\c` is rendered as `(:a|\?b)?c`, which is read as the same tree. -/
theorem parse_renderSequence_optionalGroup : ∃ nodes,
    parse ['(', ':', 'a', '|', '\\', '?', 'b', ')', '?', '\\', 'c'] = .ok nodes ∧
      renderSequence nodes = ['(', ':', 'a', '|', '\\', '?', 'b', ')', '?', 'c'] ∧
      parse (renderSequence nodes) = .ok nodes := by
  have hparse : parse ['(', ':', 'a', '|', '\\', '?', 'b', ')', '?', '\\', 'c'] =
      .ok [.group 1 [[.parameter 2 ['a'] false], [.literal 4 ['?', 'b']]] true,
        .literal 5 ['c']] := rfl
  exact ⟨_, hparse, rfl, (parse_renderSequence_eq_iff hparse (by decide)).2.2 rfl⟩

/-- The pattern `:a\b` is rendered as `:ab`, which is one parameter. -/
theorem parse_renderSequence_escapedNamePart :
    parse [':', 'a', '\\', 'b'] = .ok [.parameter 1 ['a'] false, .literal 2 ['b']] ∧
      renderSequence [.parameter 1 ['a'] false, .literal 2 ['b']] = [':', 'a', 'b'] ∧
      parse [':', 'a', 'b'] = .ok [.parameter 1 ['a', 'b'] false] :=
  ⟨rfl, rfl, rfl⟩

end RoutePattern
