import Mathlib.Order.Bounds.Basic
import RoutePattern.Proofs.Automaton.Matches

/-!
# The lengths of matching inputs

A path has a cut of the input in which every capture takes the same value (`exists_cut_sample`).
With a value of one byte this input is as short as the path allows (`isLeast_cutLengths`), and with
longer values there is no end to its length (`not_bddAbove_cutLengths`). So the bounds that an
automaton keeps are exact: `minLength` is the least length of an input with a match, and
`maxLength?` the greatest one, if there is one (`matchLengths_bounds`).
-/

namespace RoutePattern

variable {τ : Type}

/-! ## The lengths of cuts -/

namespace Path

/-- The input in which every capture of the path takes `value`. -/
def sample (value : Text) : Path τ → Text
  | [] => []
  | .fixed text :: rest => text ++ sample value rest
  | .capture _ :: rest => value ++ sample value rest
  | _ :: rest => sample value rest

/-- If every name may hold the value, the input that is made with it has a cut. -/
theorem exists_cut_sample {value : Text} (hvalue : ∀ name, IsValue name value) (path : Path τ) :
    ∃ pieces, path.Cut (path.sample value) pieces := by
  induction path with
  | nil => exact ⟨[], cut_nil_iff.2 ⟨rfl, rfl⟩⟩
  | cons kind path ih =>
    obtain ⟨pieces, hpieces⟩ := ih
    cases kind with
    | start => exact ⟨pieces, cut_start_iff.2 hpieces⟩
    | accept tag => exact ⟨pieces, cut_accept_iff.2 hpieces⟩
    | fixed text => exact ⟨text :: pieces, cut_fixed_iff.2 ⟨_, _, rfl, rfl, hpieces⟩⟩
    | capture name =>
      exact ⟨value :: pieces, cut_capture_iff.2 ⟨_, _, _, rfl, rfl, hvalue name, hpieces⟩⟩

/-- A run of letters is a value of every name. -/
theorem isValue_replicate (name : Text) (count : Nat) :
    IsValue name (List.replicate (count + 1) 'a') :=
  ⟨List.cons_ne_nil _ _, .inr fun h => absurd (List.eq_of_mem_replicate h) (by decide)⟩

/-- With values of one byte the input is as short as the path allows. -/
theorem byteLength_sample_char (path : Path τ) :
    (path.sample ['a']).byteLength = path.leastLength := by
  induction path with
  | nil => rfl
  | cons kind path ih =>
    cases kind with
    | start => exact ih
    | accept tag => exact ih
    | fixed text => rw [sample, Text.byteLength_append, ih, leastLength]
    | capture name =>
      rw [sample, Text.byteLength_append, ih, leastLength]
      rfl

theorem byteLength_sample_of_greatestLength? {path : Path τ} {length : Nat}
    (h : path.greatestLength? = some length) (value : Text) :
    (path.sample value).byteLength = length := by
  induction path generalizing length with
  | nil => exact Option.some.inj h
  | cons kind path ih =>
    cases kind with
    | start => exact ih h
    | accept tag => exact ih h
    | fixed text =>
      obtain ⟨rest, hrest, rfl⟩ := Option.map_eq_some_iff.1 h
      rw [sample, Text.byteLength_append, ih hrest]
    -- A path with a capture has no greatest length.
    | capture name => cases h

/-- A path without a greatest length has a capture, and its input is as long as the value or
longer. -/
theorem byteLength_le_sample {path : Path τ} (h : path.greatestLength? = none) (value : Text) :
    value.byteLength ≤ (path.sample value).byteLength := by
  induction path with
  | nil => cases h
  | cons kind path ih =>
    cases kind with
    | start => exact ih h
    | accept tag => exact ih h
    | fixed text =>
      have hrest := ih (Option.map_eq_none_iff.1 h)
      rw [sample, Text.byteLength_append]
      exact Nat.le_trans hrest (Nat.le_add_left _ _)
    | capture name =>
      rw [sample, Text.byteLength_append]
      exact Nat.le_add_right _ _

/-- The numbers of bytes of the inputs that have a cut along the path. -/
def cutLengths (path : Path τ) : Set Nat :=
  {length | ∃ input pieces, path.Cut input pieces ∧ input.byteLength = length}

theorem byteLength_sample_mem_cutLengths (path : Path τ) (count : Nat) :
    (path.sample (List.replicate (count + 1) 'a')).byteLength ∈ path.cutLengths := by
  obtain ⟨pieces, hcut⟩ := exists_cut_sample (isValue_replicate · count) path
  exact ⟨_, pieces, hcut, rfl⟩

/-- The least length of a path is that of an input with a cut, and no such input is shorter. -/
theorem isLeast_cutLengths (path : Path τ) : IsLeast path.cutLengths path.leastLength := by
  refine ⟨?_, ?_⟩
  · rw [← byteLength_sample_char]
    exact byteLength_sample_mem_cutLengths path 0
  · rintro _ ⟨input, pieces, hcut, rfl⟩
    exact leastLength_le_of_cut hcut

theorem isGreatest_cutLengths {path : Path τ} {length : Nat}
    (h : path.greatestLength? = some length) : IsGreatest path.cutLengths length := by
  refine ⟨?_, ?_⟩
  · rw [← byteLength_sample_of_greatestLength? h]
    exact byteLength_sample_mem_cutLengths path 0
  · rintro _ ⟨input, pieces, hcut, rfl⟩
    exact byteLength_le_of_cut h hcut

theorem not_bddAbove_cutLengths {path : Path τ} (h : path.greatestLength? = none) :
    ¬ BddAbove path.cutLengths := by
  rintro ⟨bound, hbound⟩
  -- One capture is enough to pass the bound, when its value is longer than the bound.
  have hle := hbound (byteLength_sample_mem_cutLengths path bound)
  have hvalue := byteLength_le_sample h (List.replicate (bound + 1) 'a')
  have hlength := Text.length_le_byteLength (List.replicate (bound + 1) 'a')
  rw [List.length_replicate] at hlength
  omega

/-- A path spells a text just if it has a greatest length. -/
theorem isSome_literalText? (path : Path τ) :
    path.literalText?.isSome = path.greatestLength?.isSome := by
  induction path with
  | nil => rfl
  | cons kind path ih => cases kind <;> simp [literalText?, greatestLength?, ih]

end Path

/-! ## The lengths of matching inputs -/

namespace Automaton

/-- The numbers of bytes of the inputs that have a match. -/
def matchLengths (automaton : Automaton τ) : Set Nat :=
  {length | ∃ input, (automaton.matchesOf input).toList ≠ [] ∧ input.byteLength = length}

section Pool

variable {paths : List (Path τ)}

/-- An input has a match just if one of the paths cuts it. -/
theorem mem_matchLengths_iff (hends : ∀ path ∈ paths, ∃ tag, path.Ends tag) {length : Nat} :
    length ∈ (ofNormal paths).matchLengths ↔ ∃ path ∈ paths, length ∈ path.cutLengths := by
  have hmatch (input : Text) : ((ofNormal paths).matchesOf input).toList ≠ [] ↔
      ∃ path ∈ paths, ∃ pieces, path.Cut input pieces := by
    rw [toList_matchesOf hends, Ne, List.flatMap_eq_nil_iff]
    push Not
    refine exists_congr fun path => and_congr_right fun hpath => ?_
    obtain ⟨tag, htag⟩ := hends path hpath
    rw [htag.matches, Ne, List.map_eq_nil_iff, List.eq_nil_iff_forall_not_mem]
    push Not
    exact exists_congr fun pieces => Path.mem_cuts_iff
  constructor
  · rintro ⟨input, hinput, hlength⟩
    obtain ⟨path, hpath, pieces, hcut⟩ := (hmatch input).1 hinput
    exact ⟨path, hpath, input, pieces, hcut, hlength⟩
  · rintro ⟨path, hpath, input, pieces, hcut, hlength⟩
    exact ⟨input, (hmatch input).2 ⟨path, hpath, pieces, hcut⟩, hlength⟩

/-- An input with a match may be as short as the shortest path asks for, and no shorter. -/
theorem isLeast_minLength (hends : ∀ path ∈ paths, ∃ tag, path.Ends tag) (hne : paths ≠ []) :
    IsLeast (ofNormal paths).matchLengths (ofNormal paths).minLength := by
  have hsome : (paths.map Path.leastLength).min? = some (ofNormal paths).minLength := by
    cases hmin : (paths.map Path.leastLength).min? with
    | none => exact absurd (List.map_eq_nil_iff.1 (List.min?_eq_none_iff.1 hmin)) hne
    | some least => simp [ofNormal, hmin]
  obtain ⟨hmem, hleast⟩ := List.min?_eq_some_iff.1 hsome
  refine ⟨?_, fun length hlength => ?_⟩
  · obtain ⟨path, hpath, hown⟩ := List.mem_map.1 hmem
    exact (mem_matchLengths_iff hends).2 ⟨path, hpath, hown ▸ path.isLeast_cutLengths.1⟩
  · obtain ⟨path, hpath, hcut⟩ := (mem_matchLengths_iff hends).1 hlength
    exact Nat.le_trans (hleast _ (List.mem_map_of_mem hpath)) (path.isLeast_cutLengths.2 hcut)

/-- A pool has no greatest length just if one of its paths has none. -/
theorem maxLength?_eq_none_iff : (ofNormal paths).maxLength? = none ↔
    ∃ path ∈ paths, path.greatestLength? = none := by
  have hsome : (∃ lengths, paths.mapM Path.greatestLength? = some lengths) ↔
      ∀ path ∈ paths, ∃ length, path.greatestLength? = some length := by
    simp only [mapM_eq_some_iff, exists_forall₂_iff]
  have hnone : (ofNormal paths).maxLength? = none ↔ paths.mapM Path.greatestLength? = none :=
    Option.map_eq_none_iff
  rw [hnone, ← not_iff_not, ← Ne, Option.ne_none_iff_exists', hsome]
  push Not
  exact forall₂_congr fun path _ => Option.ne_none_iff_exists'.symm

theorem isGreatest_maxLength? (hends : ∀ path ∈ paths, ∃ tag, path.Ends tag) (hne : paths ≠ [])
    {length : Nat} (h : (ofNormal paths).maxLength? = some length) :
    IsGreatest (ofNormal paths).matchLengths length := by
  obtain ⟨lengths, hlengths, rfl⟩ := Option.map_eq_some_iff.1 h
  have hpairs := mapM_eq_some_iff.1 hlengths
  refine ⟨?_, fun other hother => ?_⟩
  · -- The maximum of some lengths, of which there is at least one, is one of them.
    have hmax : lengths.foldl max 0 ∈ lengths := by
      cases lengths with
      | nil => exact absurd (List.forall₂_nil_right_iff.1 hpairs) hne
      | cons first rest =>
        rw [List.foldl_max, Nat.zero_max]
        exact List.max?_mem rfl
    obtain ⟨path, hpath, hown⟩ := exists_mem_of_forall₂ hpairs hmax
    exact (mem_matchLengths_iff hends).2 ⟨path, hpath, (Path.isGreatest_cutLengths hown).1⟩
  · obtain ⟨path, hpath, hcut⟩ := (mem_matchLengths_iff hends).1 hother
    obtain ⟨own, hown, hgreatest⟩ := exists_mem_of_forall₂ hpairs.flip hpath
    exact Nat.le_trans ((Path.isGreatest_cutLengths hgreatest).2 hcut) (le_foldl_max_of_mem hown)

theorem not_bddAbove_matchLengths (hends : ∀ path ∈ paths, ∃ tag, path.Ends tag)
    (h : (ofNormal paths).maxLength? = none) : ¬ BddAbove (ofNormal paths).matchLengths := by
  obtain ⟨path, hpath, hnone⟩ := maxLength?_eq_none_iff.1 h
  refine fun hbounded => Path.not_bddAbove_cutLengths hnone (hbounded.mono fun length hlength => ?_)
  exact (mem_matchLengths_iff hends).2 ⟨path, hpath, hlength⟩

theorem onlyFixed_eq_false_iff : (ofNormal paths).onlyFixed = false ↔
    (ofNormal paths).maxLength? = none := by
  rw [maxLength?_eq_none_iff]
  simp [ofNormal, Path.isSome_literalText?]

end Pool

/-- The bounds of a pool that is not empty are exact. The least length of an input with a match is
`minLength`; there is a greatest one just if `maxLength?` gives it; and if it gives none, a path has
a capture and matching inputs can be as long as you like. -/
theorem matchLengths_bounds {paths : List (Path τ)} {automaton : Automaton τ}
    (h : ofPaths paths = .ok automaton) (hne : paths ≠ []) :
    IsLeast automaton.matchLengths automaton.minLength ∧
      (∀ length, automaton.maxLength? = some length ↔ IsGreatest automaton.matchLengths length) ∧
      (automaton.maxLength? = none ↔ ¬ BddAbove automaton.matchLengths) ∧
      (automaton.maxLength? = none ↔ automaton.onlyFixed = false) := by
  have hends := ends_of_ofPaths h
  have hnormal : paths.map Path.normal ≠ [] := fun hnil => hne (List.map_eq_nil_iff.1 hnil)
  obtain ⟨rfl, -⟩ := ofPaths_eq_ok_iff.1 h
  have hgreatest {length : Nat}
      (hlength : (ofNormal (paths.map Path.normal)).maxLength? = some length) :
      IsGreatest (ofNormal (paths.map Path.normal)).matchLengths length :=
    isGreatest_maxLength? hends hnormal hlength
  have hendless := not_bddAbove_matchLengths hends
  refine ⟨isLeast_minLength hends hnormal, fun length => ⟨hgreatest, fun hlength => ?_⟩,
    ⟨hendless, fun hunbounded => ?_⟩, onlyFixed_eq_false_iff.symm⟩
  · cases hmax : (ofNormal (paths.map Path.normal)).maxLength? with
    | none => exact absurd hlength.bddAbove (hendless hmax)
    | some bound => rw [(hgreatest hmax).unique hlength]
  · cases hmax : (ofNormal (paths.map Path.normal)).maxLength? with
    | none => rfl
    | some bound => exact absurd (hgreatest hmax).bddAbove hunbounded

/-- Two texts, the shorter one of two bytes. -/
def spelledPool : List (Path Nat) :=
  [[.fixed ['a'], .start, .fixed ['b', 'é'], .accept 1], [.fixed ['é'], .accept 2]]

/-- A path with a capture besides a longer text. -/
def openPool : List (Path Nat) :=
  [[.fixed ['a', 'b', 'c'], .accept 1], [.capture ['n'], .fixed ['-'], .accept 2]]

theorem matchLengths_spelledPool :
    (∃ automaton, ofPaths spelledPool = .ok automaton ∧ automaton.maxLength? = some 4 ∧
      IsLeast automaton.matchLengths 2 ∧ IsGreatest automaton.matchLengths 4) ∧
    ∃ automaton, ofPaths openPool = .ok automaton ∧ automaton.maxLength? = none ∧
      IsLeast automaton.matchLengths 2 ∧ ¬ BddAbove automaton.matchLengths := by
  have hspelled : ofPaths spelledPool = .ok (ofNormal (spelledPool.map Path.normal)) := rfl
  obtain ⟨hspelledLeast, hgreatest, -⟩ := matchLengths_bounds hspelled (List.cons_ne_nil _ _)
  have hopen : ofPaths openPool = .ok (ofNormal (openPool.map Path.normal)) := rfl
  obtain ⟨hopenLeast, -, hendless, -⟩ := matchLengths_bounds hopen (List.cons_ne_nil _ _)
  exact ⟨⟨_, hspelled, rfl, hspelledLeast, (hgreatest 4).1 rfl⟩,
    _, hopen, rfl, hopenLeast, hendless.1 rfl⟩

end Automaton

end RoutePattern
