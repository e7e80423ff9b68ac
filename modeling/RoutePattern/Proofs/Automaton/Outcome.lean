import RoutePattern.Proofs.Automaton.Patterns
import RoutePattern.Proofs.Graph.Listing
import RoutePattern.Proofs.Node.Grammar
import RoutePattern.Proofs.Node.Parse
import RoutePattern.Proofs.Path.Touching

/-!
# What becomes of a pattern

A pattern makes an automaton unless it is too long, is not of the grammar, has too many ways
through its tree or has captures that touch on one of them (`ofPattern_outcomes`). The faults that
the compiler and the walks look out for do not occur in a tree that was read from a pattern.
-/

namespace RoutePattern

open Node

/-! ## Paths with touching captures -/

/-- The first of the paths on which captures touch, and the first captures that do. -/
def FirstAmbiguous (found : List (Path Unit)) (first second : Text) : Prop :=
  ∃ earlier path later, found = earlier ++ path :: later ∧
    (∀ other ∈ earlier, ¬ other.Touching) ∧ path.FirstTouching first second

theorem exists_checked_eq_ok_iff {path : Path Unit} :
    (∃ ready, path.checked = .ok ready) ↔ ¬ path.Touching := by
  simp [checked_eq_ok_iff, Path.check_normal, Path.check_eq_ok_iff]

theorem checked_eq_error_iff {path : Path Unit} {e : PatternError} : path.checked = .error e ↔
    ∃ first second, path.FirstTouching first second ∧ e = .ambiguous first second := by
  rw [← Path.check_eq_error_iff, ← Path.check_normal, Path.checked, bind_eq_error_iff]
  simp [pure, Except.pure]

theorem mapM_checked_eq_error_iff {found : List (Path Unit)} {e : PatternError} :
    found.mapM Path.checked = .error e ↔
      ∃ first second, FirstAmbiguous found first second ∧ e = .ambiguous first second := by
  simp only [mapM_eq_error_iff, exists_checked_eq_ok_iff, checked_eq_error_iff, FirstAmbiguous]
  constructor
  · rintro ⟨earlier, path, later, hfound, hearlier, first, second, hpath, he⟩
    exact ⟨first, second, ⟨earlier, path, later, hfound, hearlier, hpath⟩, he⟩
  · rintro ⟨first, second, ⟨earlier, path, later, hfound, hearlier, hpath⟩, he⟩
    exact ⟨earlier, path, later, hfound, hearlier, first, second, hpath, he⟩

/-! ## The paths of a pattern -/

/-- The graph of a pattern is compiled and ends in an end state, and its walks are the paths of the
ways through the tree, unless they are too many. -/
theorem exists_walks_of_parse {pattern : Text} {nodes : List Node}
    (h : parse pattern = .ok nodes) : ∃ graph found, compile nodes = .ok graph ∧
      (graph.back?.any fun state => state.kind.isAccept) = true ∧
      (∀ path, path ∈ found ↔ ∃ way ∈ waysOfSequence nodes, pathOf way = path) ∧
      walks graph = if (waysOfSequence nodes).eraseDups.length ≤ maxPaths then .ok found
        else .error .tooManyPaths := by
  obtain ⟨graph, order, hcompile, hback, hperm, -, hwalks⟩ := (isTree_of_parse h).exists_listing
  rw [hperm.length_eq] at hwalks
  refine ⟨graph, order.map pathOf, hcompile, hback, fun path => ?_, hwalks⟩
  simp only [List.mem_map, hperm.mem_iff, List.mem_eraseDups]

/-- Walks that are listed for a pattern are not too many, and are the paths of the ways through the
tree. -/
theorem mem_walks_of_parse {pattern : Text} {nodes : List Node} {graph : Graph Unit}
    {found : List (Path Unit)} (hparse : parse pattern = .ok nodes)
    (hcompile : compile nodes = .ok graph) (hfound : walks graph = .ok found) :
    (waysOfSequence nodes).eraseDups.length ≤ maxPaths ∧
      ∀ path, path ∈ found ↔ ∃ way ∈ waysOfSequence nodes, pathOf way = path := by
  obtain ⟨_, listed, hown, -, hmem, hwalks⟩ := exists_walks_of_parse hparse
  obtain rfl := Except.ok.inj (hcompile.symm.trans hown)
  rw [hwalks] at hfound
  split at hfound
  · next hfew =>
    obtain rfl := Except.ok.inj hfound
    exact ⟨hfew, hmem⟩
  · cases hfound

/-- The paths of a pattern are the normal forms of those of the ways through its tree, each once. -/
theorem mem_pathsOf_iff {pattern : Text} {nodes : List Node} {paths : List (Path Unit)}
    (hparse : parse pattern = .ok nodes) (hpaths : pathsOf pattern = .ok paths) :
    paths.Nodup ∧
      ∀ path, path ∈ paths ↔ ∃ way ∈ waysOfSequence nodes, (pathOf way).normal = path := by
  obtain ⟨_, graph, found, hown, hcompile, -, hfound, -, rfl⟩ := pathsOf_eq_ok_iff.1 hpaths
  obtain rfl := Except.ok.inj (hparse.symm.trans hown)
  obtain ⟨-, hmem⟩ := mem_walks_of_parse hparse hcompile hfound
  refine ⟨nodup_eraseDups _, fun path => ?_⟩
  rw [List.mem_eraseDups, List.mem_map]
  constructor
  · rintro ⟨walk, hwalk, rfl⟩
    obtain ⟨way, hway, rfl⟩ := (hmem walk).1 hwalk
    exact ⟨way, hway, rfl⟩
  · rintro ⟨way, hway, rfl⟩
    exact ⟨_, (hmem _).2 ⟨way, hway, rfl⟩, rfl⟩

theorem pathsOf_eq_error_iff_of_compile {pattern : Text} {nodes : List Node} {graph : Graph Unit}
    (hparse : parse pattern = .ok nodes) (hcompile : compile nodes = .ok graph)
    (hback : (graph.back?.any fun state => state.kind.isAccept) = true) {e : PatternError} :
    pathsOf pattern = .error e ↔ walks graph = .error e ∨
      ∃ found, walks graph = .ok found ∧ found.mapM Path.checked = .error e := by
  have hpaths : pathsOf pattern = walks graph >>= fun found =>
      found.mapM Path.checked >>= fun ready => pure ready.eraseDups := by
    rw [pathsOf, hparse]
    show (compile nodes >>= _) = _
    rw [hcompile]
    show (if (!_) = true then _ else _) = _
    rw [hback]
    rfl
  simp only [hpaths, bind_eq_error_iff]
  simp [pure, Except.pure]

/-- A pattern has no paths if it cannot be read, if there are too many of them, or if captures
touch on one of them. -/
theorem pathsOf_eq_error_iff {pattern : Text} {e : PatternError} : pathsOf pattern = .error e ↔
    parse pattern = .error e ∨
    (∃ nodes, parse pattern = .ok nodes ∧ maxPaths < (waysOfSequence nodes).eraseDups.length ∧
      e = .tooManyPaths) ∨
    ∃ nodes graph found first second, parse pattern = .ok nodes ∧ compile nodes = .ok graph ∧
      walks graph = .ok found ∧ FirstAmbiguous found first second ∧
      e = .ambiguous first second := by
  cases hparse : parse pattern with
  | error reading =>
    have hpaths : pathsOf pattern = .error reading := by rw [pathsOf, hparse]; rfl
    simp [hpaths]
  | ok nodes =>
    obtain ⟨graph, found, hcompile, hback, -, hwalks⟩ := exists_walks_of_parse hparse
    have hmany : walks graph = .error e ↔
        maxPaths < (waysOfSequence nodes).eraseDups.length ∧ e = .tooManyPaths := by
      rw [hwalks]
      split
      · next hfew => simp [hfew]
      · next hmany => simp [Nat.lt_of_not_le hmany, eq_comm]
    rw [pathsOf_eq_error_iff_of_compile hparse hcompile hback, hmany]
    simp [mapM_checked_eq_error_iff, hcompile]

/-- A pattern has paths if it can be read, there are not too many of them, and on none of them
captures touch. -/
theorem exists_pathsOf_eq_ok_iff {pattern : Text} : (∃ paths, pathsOf pattern = .ok paths) ↔
    ∃ nodes, parse pattern = .ok nodes ∧ (waysOfSequence nodes).eraseDups.length ≤ maxPaths ∧
      ∀ way ∈ waysOfSequence nodes, ¬ (pathOf way).Touching := by
  simp only [pathsOf_eq_ok_iff, Path.check_normal, Path.check_eq_ok_iff]
  constructor
  · rintro ⟨_, nodes, graph, found, hparse, hcompile, -, hfound, htouching, -⟩
    obtain ⟨hfew, hmem⟩ := mem_walks_of_parse hparse hcompile hfound
    exact ⟨nodes, hparse, hfew, fun way hway => htouching _ ((hmem _).2 ⟨way, hway, rfl⟩)⟩
  · rintro ⟨nodes, hparse, hfew, htouching⟩
    obtain ⟨graph, found, hcompile, hback, hmem, hwalks⟩ := exists_walks_of_parse hparse
    rw [if_pos hfew] at hwalks
    refine ⟨_, nodes, graph, found, hparse, hcompile, hback, hwalks, fun path hpath => ?_, rfl⟩
    obtain ⟨way, hway, rfl⟩ := (hmem path).1 hpath
    exact htouching way hway

namespace Automaton

/-! ## Outcomes -/

section Outcomes

variable {pattern : Text}

theorem ofPattern_eq_tooLong_iff {length : Nat} :
    ofPattern pattern = .error (.tooLong length) ↔
      maxPatternLength < pattern.byteLength ∧ length = pattern.byteLength := by
  rw [ofPattern_eq_error_iff, pathsOf_eq_error_iff, parse_eq_error_iff]
  simp

theorem ofPattern_eq_misspelled_iff {text : Text} {offset : Nat} {reason : Misspelling} :
    ofPattern pattern = .error (.misspelled text offset reason) ↔
      parse pattern = .error (.misspelled text offset reason) := by
  rw [ofPattern_eq_error_iff, pathsOf_eq_error_iff]
  simp

theorem ofPattern_eq_tooManyPaths_iff : ofPattern pattern = .error .tooManyPaths ↔
    ∃ nodes, parse pattern = .ok nodes ∧ maxPaths < (waysOfSequence nodes).eraseDups.length := by
  rw [ofPattern_eq_error_iff, pathsOf_eq_error_iff, parse_eq_error_iff]
  simp

theorem ofPattern_eq_ambiguous_iff {first second : Text} :
    ofPattern pattern = .error (.ambiguous first second) ↔
      ∃ nodes graph found, parse pattern = .ok nodes ∧ compile nodes = .ok graph ∧
        walks graph = .ok found ∧ FirstAmbiguous found first second := by
  rw [ofPattern_eq_error_iff, pathsOf_eq_error_iff, parse_eq_error_iff]
  simp

/-- The faults of trees, graphs and paths are none of a pattern. -/
theorem ofPattern_ne_malformed (fault : Fault) : ofPattern pattern ≠ .error (.malformed fault) := by
  rw [Ne, ofPattern_eq_error_iff, pathsOf_eq_error_iff, parse_eq_error_iff]
  simp

theorem exists_ofPattern_eq_ambiguous_iff :
    (∃ first second, ofPattern pattern = .error (.ambiguous first second)) ↔
      ∃ nodes, parse pattern = .ok nodes ∧ (waysOfSequence nodes).eraseDups.length ≤ maxPaths ∧
        ∃ way ∈ waysOfSequence nodes, (pathOf way).Touching := by
  constructor
  · rintro ⟨first, second, h⟩
    obtain ⟨nodes, graph, found, hparse, hcompile, hfound, hfirst⟩ :=
      ofPattern_eq_ambiguous_iff.1 h
    obtain ⟨earlier, path, later, rfl, -, htouching⟩ := hfirst
    obtain ⟨hfew, hmem⟩ := mem_walks_of_parse hparse hcompile hfound
    obtain ⟨way, hway, rfl⟩ := (hmem path).1 (by simp)
    exact ⟨nodes, hparse, hfew, way, hway, Path.touching_iff_exists.2 ⟨first, second, htouching⟩⟩
  · rintro ⟨nodes, hparse, hfew, way, hway, htouching⟩
    have hnone : ¬ ∃ automaton, ofPattern pattern = .ok automaton := by
      rw [exists_ofPattern_eq_ok_iff, exists_pathsOf_eq_ok_iff]
      rintro ⟨_, hown, -, h⟩
      obtain rfl := Except.ok.inj (hparse.symm.trans hown)
      exact h way hway htouching
    -- So there is an error, and only one of the causes is left.
    cases h : ofPattern pattern with
    | ok automaton => exact absurd ⟨automaton, h⟩ hnone
    | error e =>
      rcases pathsOf_eq_error_iff.1 (ofPattern_eq_error_iff.1 h) with
        hread | ⟨_, hown, hmany, -⟩ | ⟨_, _, _, first, second, -, -, -, -, rfl⟩
      · simp [hparse] at hread
      · obtain rfl := Except.ok.inj (hparse.symm.trans hown)
        omega
      · exact ⟨first, second, rfl⟩

end Outcomes

/-- What becomes of a pattern: it is too long; or it is not of the grammar; or it has too many
different ways through its tree; or captures touch on one of them, and it is refused for the first
captures that do on the first such path; or it makes an automaton. No other error occurs. -/
theorem ofPattern_outcomes (pattern : Text) :
    (∀ length, ofPattern pattern = .error (.tooLong length) ↔
      maxPatternLength < pattern.byteLength ∧ length = pattern.byteLength) ∧
    ((∃ text offset reason, ofPattern pattern = .error (.misspelled text offset reason)) ↔
      pattern.byteLength ≤ maxPatternLength ∧ ¬ IsSequence pattern) ∧
    (ofPattern pattern = .error .tooManyPaths ↔
      ∃ nodes, parse pattern = .ok nodes ∧ maxPaths < (waysOfSequence nodes).eraseDups.length) ∧
    ((∃ first second, ofPattern pattern = .error (.ambiguous first second)) ↔
      ∃ nodes, parse pattern = .ok nodes ∧ (waysOfSequence nodes).eraseDups.length ≤ maxPaths ∧
        ∃ way ∈ waysOfSequence nodes, (pathOf way).Touching) ∧
    (∀ first second, ofPattern pattern = .error (.ambiguous first second) ↔
      ∃ nodes graph found, parse pattern = .ok nodes ∧ compile nodes = .ok graph ∧
        walks graph = .ok found ∧ FirstAmbiguous found first second) ∧
    ((∃ automaton, ofPattern pattern = .ok automaton) ↔
      ∃ nodes, parse pattern = .ok nodes ∧ (waysOfSequence nodes).eraseDups.length ≤ maxPaths ∧
        ∀ way ∈ waysOfSequence nodes, ¬ (pathOf way).Touching) ∧
    ((∃ nodes, parse pattern = .ok nodes) ↔
      pattern.byteLength ≤ maxPatternLength ∧ IsSequence pattern) ∧
    ∀ fault, ofPattern pattern ≠ .error (.malformed fault) := by
  refine ⟨fun _ => ofPattern_eq_tooLong_iff, ?_, ofPattern_eq_tooManyPaths_iff,
    exists_ofPattern_eq_ambiguous_iff, fun _ _ => ofPattern_eq_ambiguous_iff, ?_,
    exists_parse_eq_ok_iff, ofPattern_ne_malformed⟩
  · simp only [ofPattern_eq_misspelled_iff, exists_parse_eq_misspelled_iff]
  · rw [exists_ofPattern_eq_ok_iff, exists_pathsOf_eq_ok_iff]

end Automaton

end RoutePattern
