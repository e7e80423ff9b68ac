import RoutePattern.Proofs.Automaton.Meaning
import RoutePattern.Proofs.Router.Mount

/-!
# What a mount pattern matches

The tree of a mount pattern is that of its prefix with a group behind it (`parse_mountPattern_iff`).
So it matches what the prefix matches, alone or with a slash and any text behind it, and the text
is the rest of the path (`readsSequence_mountPattern_iff`).
-/

namespace RoutePattern

open Node

variable {pathPrefix input : Text} {nodes mounted : List Node} {captures : List (Text × Text)}

/-! ## The tree of a mount pattern -/

/-- A mount pattern is read as its prefix and then the group that was put behind it. -/
theorem parse_mountPattern_iff (hescape : ¬ EndsInEscape (pathPrefix.dropTrailing '/')) :
    parse (Route.mountPattern pathPrefix) = .ok mounted ↔
      (Route.mountPattern pathPrefix).byteLength ≤ maxPatternLength ∧
      ∃ draft, Draft.empty.readText 0 (pathPrefix.dropTrailing '/') = .ok draft ∧
        draft.groups = [] ∧ mounted = draft.nodes.reverse ++ [Draft.continuation draft.lastId] := by
  -- The bracket that is put behind the prefix ends every name and is no mark.
  have hrest : ∀ c ∈ (['(', '/', '(', ':', '_', ')', '?', ')', '?'] : Text).head?,
      isNamePart c = false ∧ c ≠ '?' := by
    intro c hc
    obtain rfl := Option.some.inj hc
    decide
  rw [parse_eq_ok_iff, Route.mountPattern, Draft.readText_append hescape hrest]
  refine and_congr_right fun _ => ?_
  simp only [bind_eq_ok_iff]
  constructor
  · rintro ⟨_, ⟨draft, hdraft, hlast⟩, hgroups, rfl⟩
    obtain rfl := Except.ok.inj (hlast.symm.trans (Draft.readText_continuation ..))
    exact ⟨draft, hdraft, hgroups, List.reverse_cons⟩
  · rintro ⟨draft, hdraft, hgroups, rfl⟩
    exact ⟨_, ⟨draft, hdraft, Draft.readText_continuation ..⟩, hgroups, List.reverse_cons.symm⟩

/-! ## What it matches -/

/-- The group matches nothing, a slash, or a slash and the rest of the path. -/
theorem readsSequence_continuation_iff {lastId : Nat} :
    ReadsSequence [Draft.continuation lastId] input captures ↔
      (input = [] ∨ input = ['/']) ∧ captures = [] ∨
      ∃ rest, rest ≠ [] ∧ input = '/' :: rest ∧ captures = [(remainderName, rest)] := by
  have hways : (shapeOfSequence true [Draft.continuation lastId]).ways =
      waysOfSequence [Draft.continuation lastId] := (waysOfSequence_eq _).symm
  rw [readsSequence_iff, Shape.Reads, hways, Draft.waysOfSequence_continuation]
  simp only [List.mem_cons, List.not_mem_nil, or_false, exists_eq_or_imp, exists_eq_left,
    List.map_cons, List.map_nil, Path.reads_fixed_iff, Path.reads_capture_iff, Path.reads_nil_iff]
  constructor
  · rintro (⟨_, rfl, rest, _, _, rfl, rfl, hrest, rfl, rfl⟩ | ⟨_, rfl, rfl, rfl⟩ | ⟨rfl, rfl⟩)
    · exact .inr ⟨rest, hrest.1, by simp, rfl⟩
    · exact .inl ⟨.inr rfl, rfl⟩
    · exact .inl ⟨.inl rfl, rfl⟩
  · rintro (⟨rfl | rfl, rfl⟩ | ⟨rest, hrest, rfl, rfl⟩)
    · exact .inr (.inr ⟨rfl, rfl⟩)
    · exact .inr (.inl ⟨[], rfl, rfl, rfl⟩)
    · exact .inl ⟨rest, rfl, rest, [], [], by simp, rfl, ⟨hrest, .inl rfl⟩, rfl, rfl⟩

theorem readsSequence_filled_iff {lastId : Nat} :
    ReadsSequence (Draft.filled lastId nodes).1 input captures ↔
      ReadsSequence nodes.reverse input captures := by
  cases nodes with
  | cons node nodes => rfl
  | nil =>
    constructor
    · rintro (_ | ⟨⟨⟩, ⟨⟩⟩)
      exact .nil
    · rintro ⟨⟩
      exact .cons .literal .nil

/-- A mount pattern matches what the prefix matches, with nothing behind it, or a slash, or a slash
and the rest of the path. -/
theorem readsSequence_mountPattern_iff (hnodes : parse (pathPrefix.dropTrailing '/') = .ok nodes)
    (hmounted : parse (Route.mountPattern pathPrefix) = .ok mounted) :
    ReadsSequence mounted input captures ↔
      ReadsSequence nodes input captures ∨
      (∃ lead, input = lead ++ ['/'] ∧ ReadsSequence nodes lead captures) ∨
      ∃ lead rest made, rest ≠ [] ∧ input = lead ++ '/' :: rest ∧
        captures = made ++ [(remainderName, rest)] ∧ ReadsSequence nodes lead made := by
  obtain ⟨-, draft, hdraft, -, rfl⟩ := parse_eq_ok_iff.1 hnodes
  obtain ⟨-, own, hown, -, rfl⟩ :=
    (parse_mountPattern_iff (Draft.not_endsInEscape_of_readText hdraft)).1 hmounted
  obtain rfl := Except.ok.inj (hdraft.symm.trans hown)
  simp only [readsSequence_append_iff, readsSequence_filled_iff, readsSequence_continuation_iff]
  constructor
  · rintro ⟨lead, left, made, others, rfl, rfl, hlead,
      ⟨rfl | rfl, rfl⟩ | ⟨rest, hrest, rfl, rfl⟩⟩
    · rw [List.append_nil, List.append_nil]
      exact .inl hlead
    · rw [List.append_nil]
      exact .inr (.inl ⟨lead, rfl, hlead⟩)
    · exact .inr (.inr ⟨lead, rest, made, hrest, rfl, rfl, hlead⟩)
  · rintro (hlead | ⟨lead, rfl, hlead⟩ | ⟨lead, rest, made, hrest, rfl, rfl, hlead⟩)
    · exact ⟨input, [], captures, [], by simp, by simp, hlead, .inl ⟨.inl rfl, rfl⟩⟩
    · exact ⟨lead, ['/'], captures, [], rfl, by simp, hlead, .inl ⟨.inr rfl, rfl⟩⟩
    · exact ⟨lead, '/' :: rest, made, _, rfl, rfl, hlead, .inr ⟨rest, hrest, rfl, rfl⟩⟩

end RoutePattern
