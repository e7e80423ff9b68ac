import RoutePattern.Automaton.Patterns
import RoutePattern.Proofs.Automaton.Matches
import RoutePattern.Proofs.Graph.Walks

/-!
# Automata of one and of many patterns

The paths of a pattern are the normal forms of the walks of its graph, each once
(`pathsOf_eq_ok_iff`). Such paths always make an automaton (`ofPaths_of_isReady`), so the only
errors are those of the single patterns, and the matches of several patterns are the matches of
each of them, one pattern after the other, with its tag (`ofPatterns_concat`).
-/

namespace RoutePattern

variable {τ υ : Type}

/-! ## Tags -/

/-- The match with another tag. -/
def Match.retag (tag : υ) (found : Match τ) : Match υ := ⟨found.params, tag⟩

namespace Path

theorem cuts_map (f : τ → υ) (path : Path τ) (input : Text) :
    cuts (path.map (Kind.map f)) input = path.cuts input := by
  induction path generalizing input with
  | nil => rfl
  | cons kind path ih => cases kind <;> simp [cuts, Kind.map, ih]

theorem captured?_map (f : τ → υ) (kind : Kind τ) (piece : Text) :
    (kind.map f).captured? piece = kind.captured? piece := by
  cases kind <;> rfl

theorem takers_map (f : τ → υ) (path : Path τ) :
    takers (path.map (Kind.map f)) = path.takers.map (Kind.map f) := by
  have htaker : (Kind.isTaker ∘ Kind.map f) = (Kind.isTaker : Kind τ → Bool) := by
    funext kind
    cases kind <;> rfl
  rw [takers, List.filter_map, htaker, takers]

/-- The captures of a path do not depend on its tag. -/
theorem captured_map (f : τ → υ) (path : Path τ) (pieces : List Text) :
    captured (path.map (Kind.map f)) pieces = path.captured pieces := by
  rw [captured, takers_map, List.zip_map_left, List.filterMap_map, captured]
  apply List.filterMap_congr
  rintro ⟨kind, piece⟩ _
  exact captured?_map f kind piece

/-- A path with another tag finds the same with that tag. -/
theorem Ends.matches_map {path : Path τ} {tag : τ} (h : path.Ends tag) (new : υ) (input : Text) :
    Path.matches (path.map (Kind.map fun _ => new)) input =
      (path.matches input).map (Match.retag new) := by
  rw [(h.map fun _ => new).matches, h.matches, cuts_map]
  simp [captured_map, Match.retag]

/-- Which captures touch does not depend on the tag either. -/
theorem adjacentAfter_map (f : τ → υ) (previous : Option Text) (path : Path τ) :
    adjacentAfter previous (path.map (Kind.map f)) = adjacentAfter previous path := by
  induction path generalizing previous with
  | nil => rfl
  | cons kind path ih =>
    cases kind with
    | start => cases previous <;> exact ih _
    | accept tag => cases previous <;> exact ih _
    | capture name => cases previous <;> simp [adjacentAfter, Kind.map, ih]
    | fixed text => cases text <;> cases previous <;> exact ih _

theorem check_map (f : τ → υ) (path : Path τ) :
    check (path.map (Kind.map f)) = path.check := by
  rw [check, adjacentAfter_map, check]

/-- A path as an automaton holds it: normal, with text between its captures, and with one end. -/
structure IsReady (path : Path τ) : Prop where
  normal : path.normal = path
  check : path.check = .ok ()
  ends : ∃ tag, path.Ends tag

/-- A path stays ready with another tag. -/
theorem IsReady.map {path : Path τ} (h : path.IsReady) (f : τ → υ) :
    IsReady (path.map (Kind.map f)) := by
  obtain ⟨tag, htag⟩ := h.ends
  refine ⟨?_, ?_, f tag, htag.map f⟩
  · rw [normal_map, h.normal]
  · rw [check_map, h.check]

/-- The normal form of a path with text between its captures and one end. -/
theorem isReady_normal {path : Path τ} {tag : τ} (hcheck : path.normal.check = .ok ())
    (hends : path.Ends tag) : path.normal.IsReady :=
  ⟨normal_normal path, hcheck, tag, hends.normal⟩

end Path

theorem Kind.map_unit (f : Unit → Unit) (kind : Kind Unit) : kind.map f = kind := by
  cases kind <;> rfl

/-! ## The paths of a pattern -/

theorem checked_eq_ok_iff {path ready : Path τ} :
    path.checked = .ok ready ↔ ready = path.normal ∧ path.normal.check = .ok () := by
  unfold Path.checked
  cases h : path.normal.check with
  | error e => simp [bind, Except.bind]
  | ok u => simp [bind, Except.bind, pure, Except.pure, eq_comm]

/-- A pattern has paths if each step of its way to an automaton succeeds, and the paths are the
normal forms of its walks, each once. -/
theorem pathsOf_eq_ok_iff {pattern : Text} {paths : List (Path Unit)} :
    pathsOf pattern = .ok paths ↔ ∃ nodes graph found, parse pattern = .ok nodes ∧
      compile nodes = .ok graph ∧ (graph.back?.any fun state => state.kind.isAccept) = true ∧
      walks graph = .ok found ∧ (∀ path ∈ found, path.normal.check = .ok ()) ∧
      paths = (found.map Path.normal).eraseDups := by
  have hmap {found ready : List (Path Unit)} : found.mapM Path.checked = .ok ready ↔
      ready = found.map Path.normal ∧ ∀ path ∈ found, path.normal.check = .ok () :=
    mapM_eq_ok_map_iff fun _ _ => checked_eq_ok_iff
  simp only [pathsOf, bind_eq_ok_iff, ite_throw_eq_ok_iff, pure_eq_ok_iff, hmap,
    Bool.not_eq_false']
  constructor
  · rintro ⟨nodes, hnodes, graph, hgraph, hback, found, hfound, _, ⟨rfl, hcheck⟩, rfl⟩
    exact ⟨nodes, graph, found, hnodes, hgraph, hback, hfound, hcheck, rfl⟩
  · rintro ⟨nodes, graph, found, hnodes, hgraph, hback, hfound, hcheck, rfl⟩
    exact ⟨nodes, hnodes, graph, hgraph, hback, found, hfound, _, ⟨rfl, hcheck⟩, rfl⟩

/-- The paths of a pattern are ready for an automaton. -/
theorem isReady_of_pathsOf {pattern : Text} {paths : List (Path Unit)}
    (h : pathsOf pattern = .ok paths) {path : Path Unit} (hpath : path ∈ paths) :
    path.IsReady := by
  obtain ⟨nodes, graph, found, -, -, -, hfound, hcheck, rfl⟩ := pathsOf_eq_ok_iff.1 h
  obtain ⟨walk, hwalk, rfl⟩ := List.mem_map.1 (List.mem_eraseDups.1 hpath)
  obtain ⟨tag, htag⟩ := ends_of_mem_walks hfound hwalk
  exact Path.isReady_normal (hcheck walk hwalk) htag

/-- The paths of a pattern with its tag in their end states. -/
def tagged (tag : τ) (paths : List (Path Unit)) : List (Path τ) :=
  paths.map fun path => path.map (Kind.map fun _ => tag)

theorem tagged_unit (paths : List (Path Unit)) : tagged () paths = paths := by
  have hkind : Kind.map (fun _ : Unit => ()) = id := by
    funext kind
    exact Kind.map_unit _ kind
  simp [tagged, hkind]

theorem taggedPathsOf_eq_ok_iff {pattern : Text} {tag : τ} {pool : List (Path τ)} :
    taggedPathsOf pattern tag = .ok pool ↔
      ∃ paths, pathsOf pattern = .ok paths ∧ pool = tagged tag paths := by
  simp only [taggedPathsOf, bind_eq_ok_iff, pure_eq_ok_iff, tagged, eq_comm (a := pool)]

theorem exists_taggedPathsOf_eq_ok_iff {pattern : Text} {tag : τ} :
    (∃ pool, taggedPathsOf pattern tag = .ok pool) ↔ ∃ paths, pathsOf pattern = .ok paths := by
  simp only [taggedPathsOf_eq_ok_iff]
  constructor
  · rintro ⟨_, paths, hpaths, -⟩
    exact ⟨paths, hpaths⟩
  · rintro ⟨paths, hpaths⟩
    exact ⟨_, paths, hpaths, rfl⟩

/-- A tag does not change the error of a pattern. -/
theorem taggedPathsOf_eq_error_iff {pattern : Text} {tag : τ} {e : PatternError} :
    taggedPathsOf pattern tag = .error e ↔ pathsOf pattern = .error e := by
  simp [taggedPathsOf, bind_eq_error_iff, pure, Except.pure]

theorem isReady_of_taggedPathsOf {pattern : Text} {tag : τ} {pool : List (Path τ)}
    (h : taggedPathsOf pattern tag = .ok pool) {path : Path τ} (hpath : path ∈ pool) :
    path.IsReady := by
  obtain ⟨paths, hpaths, rfl⟩ := taggedPathsOf_eq_ok_iff.1 h
  obtain ⟨untagged, hmem, rfl⟩ := List.mem_map.1 hpath
  exact (isReady_of_pathsOf hpaths hmem).map _

namespace Automaton

/-! ## The automaton of a pool that is ready -/

/-- An automaton holds paths that are ready just as they are. -/
theorem ofPaths_of_isReady {paths : List (Path τ)} (h : ∀ path ∈ paths, path.IsReady) :
    ofPaths paths = .ok (ofNormal paths) := by
  have hnormal : paths.map Path.normal = paths :=
    (List.map_congr_left fun path hpath => (h path hpath).normal).trans (List.map_id _)
  rw [ofPaths_eq_ok_iff, hnormal]
  exact ⟨rfl, fun path hpath => ⟨(h path hpath).check, (h path hpath).ends⟩⟩

theorem isReady_of_mem_flatten {patterns : List (Text × τ)} {pools : List (List (Path τ))}
    (h : List.Forall₂ (fun entry pool => taggedPathsOf entry.1 entry.2 = .ok pool) patterns pools) :
    ∀ path ∈ pools.flatten, path.IsReady := by
  intro path hpath
  obtain ⟨pool, hpool, hmem⟩ := List.mem_flatten.1 hpath
  obtain ⟨entry, -, hentry⟩ := exists_mem_of_forall₂ h hpool
  exact isReady_of_taggedPathsOf hentry hmem

/-- The automaton of many patterns is made of the paths of each, one pattern after the other. -/
theorem ofPatterns_eq_ok_iff {patterns : List (Text × τ)} {automaton : Automaton τ} :
    ofPatterns patterns = .ok automaton ↔
      ∃ pools, List.Forall₂ (fun entry pool => taggedPathsOf entry.1 entry.2 = .ok pool)
        patterns pools ∧ automaton = ofNormal pools.flatten := by
  simp only [ofPatterns, bind_eq_ok_iff, mapM_eq_ok_iff]
  refine exists_congr fun pools => and_congr_right fun hpools => ?_
  rw [ofPaths_of_isReady (isReady_of_mem_flatten hpools)]
  simp [eq_comm]

/-- Patterns that have paths of their own always make an automaton together. -/
theorem exists_ofPatterns_eq_ok_iff {patterns : List (Text × τ)} :
    (∃ automaton, ofPatterns patterns = .ok automaton) ↔
      ∀ entry ∈ patterns, ∃ paths, pathsOf entry.1 = .ok paths := by
  have hpool (entry : Text × τ) : (∃ pool, taggedPathsOf entry.1 entry.2 = .ok pool) ↔
      ∃ paths, pathsOf entry.1 = .ok paths := exists_taggedPathsOf_eq_ok_iff
  simp only [← hpool, ← exists_forall₂_iff, ofPatterns_eq_ok_iff]
  constructor
  · rintro ⟨_, pools, hpools, -⟩
    exact ⟨pools, hpools⟩
  · rintro ⟨pools, hpools⟩
    exact ⟨_, pools, hpools, rfl⟩

/-- The error of many patterns is that of the first one without paths. -/
theorem ofPatterns_eq_error_iff {patterns : List (Text × τ)} {e : PatternError} :
    ofPatterns patterns = .error e ↔ ∃ before entry after, patterns = before ++ entry :: after ∧
      (∀ earlier ∈ before, ∃ paths, pathsOf earlier.1 = .ok paths) ∧
        pathsOf entry.1 = .error e := by
  -- Paths that are ready do not fail when they are put together.
  have hpool : (∃ pools, List.Forall₂ (fun entry pool => taggedPathsOf entry.1 entry.2 = .ok pool)
      patterns pools ∧ ofPaths pools.flatten = .error e) ↔ False := by
    refine iff_of_false ?_ not_false
    rintro ⟨pools, hpools, h⟩
    rw [ofPaths_of_isReady (isReady_of_mem_flatten hpools)] at h
    cases h
  simp only [ofPatterns, bind_eq_error_iff, mapM_eq_ok_iff, hpool, or_false, mapM_eq_error_iff,
    taggedPathsOf_eq_error_iff, exists_taggedPathsOf_eq_ok_iff]

theorem ofPattern_eq_ok_iff {pattern : Text} {automaton : Automaton Unit} :
    ofPattern pattern = .ok automaton ↔
      ∃ paths, pathsOf pattern = .ok paths ∧ automaton = ofNormal paths := by
  rw [ofPattern, ofPatterns_eq_ok_iff]
  constructor
  · rintro ⟨pools, hpools, rfl⟩
    obtain ⟨pool, rest, hpool, hrest, rfl⟩ := List.forall₂_cons_left_iff.1 hpools
    obtain rfl := List.forall₂_nil_left_iff.1 hrest
    obtain ⟨paths, hpaths, rfl⟩ := taggedPathsOf_eq_ok_iff.1 hpool
    exact ⟨paths, hpaths, by simp [tagged_unit]⟩
  · rintro ⟨paths, hpaths, rfl⟩
    refine ⟨[tagged () paths], .cons (taggedPathsOf_eq_ok_iff.2 ⟨paths, hpaths, rfl⟩) .nil, ?_⟩
    simp [tagged_unit]

theorem ofPattern_eq_error_iff {pattern : Text} {e : PatternError} :
    ofPattern pattern = .error e ↔ pathsOf pattern = .error e := by
  rw [ofPattern, ofPatterns_eq_error_iff]
  constructor
  · rintro ⟨before, entry, after, heq, -, he⟩
    have hmem : entry ∈ [(pattern, ())] := by rw [heq]; simp
    obtain rfl := List.mem_singleton.1 hmem
    exact he
  · intro he
    exact ⟨[], (pattern, ()), [], rfl, by simp, he⟩

theorem exists_ofPattern_eq_ok_iff {pattern : Text} :
    (∃ automaton, ofPattern pattern = .ok automaton) ↔
      ∃ paths, pathsOf pattern = .ok paths := by
  simp only [ofPattern_eq_ok_iff]
  constructor
  · rintro ⟨_, paths, hpaths, -⟩
    exact ⟨paths, hpaths⟩
  · rintro ⟨paths, hpaths⟩
    exact ⟨_, paths, hpaths, rfl⟩

/-! ## Matches of many patterns -/

/-- The matches of a pattern of its own; a pattern that is refused has none. -/
def matchesOfPattern (pattern : Text) (input : Text) : List (Match Unit) :=
  match ofPattern pattern with
  | .ok automaton => (automaton.matchesOf input).toList
  | .error _ => []

/-- The matches of a pattern are those of its paths, in their order. -/
theorem matchesOfPattern_eq {pattern : Text} {paths : List (Path Unit)}
    (h : pathsOf pattern = .ok paths) (input : Text) :
    matchesOfPattern pattern input = paths.flatMap fun path => path.matches input := by
  have hready : ∀ path ∈ paths, path.IsReady := fun path hpath => isReady_of_pathsOf h hpath
  rw [matchesOfPattern, ofPattern_eq_ok_iff.2 ⟨paths, h, rfl⟩]
  exact toList_matchesOf (fun path hpath => (hready path hpath).ends) input

/-- The paths of a pattern with a tag find the matches of the pattern with that tag. -/
theorem matches_of_taggedPathsOf {pattern : Text} {tag : τ} {pool : List (Path τ)}
    (h : taggedPathsOf pattern tag = .ok pool) (input : Text) :
    (pool.flatMap fun path => path.matches input) =
      (matchesOfPattern pattern input).map (Match.retag tag) := by
  obtain ⟨paths, hpaths, rfl⟩ := taggedPathsOf_eq_ok_iff.1 h
  rw [matchesOfPattern_eq hpaths, tagged, List.flatMap_map, List.map_flatMap]
  apply List.flatMap_congr
  intro path hpath
  obtain ⟨_, hends⟩ := (isReady_of_pathsOf hpaths hpath).ends
  exact hends.matches_map tag input

theorem matches_of_forall₂ {patterns : List (Text × τ)} {pools : List (List (Path τ))}
    (h : List.Forall₂ (fun entry pool => taggedPathsOf entry.1 entry.2 = .ok pool) patterns pools)
    (input : Text) :
    (pools.flatten.flatMap fun path => path.matches input) =
      patterns.flatMap fun entry => (matchesOfPattern entry.1 input).map (Match.retag entry.2) := by
  induction h with
  | nil => rfl
  | cons hpool _ ih =>
    rw [List.flatten_cons, List.flatMap_append, ih, matches_of_taggedPathsOf hpool,
      List.flatMap_cons]

/-- Many patterns find what each of them finds with its tag, one pattern after the other. -/
theorem toList_matchesOf_ofPatterns {patterns : List (Text × τ)} {automaton : Automaton τ}
    (h : ofPatterns patterns = .ok automaton) (input : Text) :
    (automaton.matchesOf input).toList =
      patterns.flatMap fun entry => (matchesOfPattern entry.1 input).map (Match.retag entry.2) := by
  obtain ⟨pools, hpools, rfl⟩ := ofPatterns_eq_ok_iff.1 h
  rw [toList_matchesOf fun path hpath => (isReady_of_mem_flatten hpools path hpath).ends]
  exact matches_of_forall₂ hpools input

/-- The tag of a match of many patterns belongs to one of them. -/
theorem exists_tag_of_mem_matches {patterns : List (Text × τ)} {automaton : Automaton τ}
    (h : ofPatterns patterns = .ok automaton) {input : Text} {found : Match τ}
    (hfound : found ∈ (automaton.matchesOf input).toList) :
    ∃ entry ∈ patterns, entry.2 = found.tag := by
  rw [toList_matchesOf_ofPatterns h] at hfound
  obtain ⟨entry, hentry, hmem⟩ := List.mem_flatMap.1 hfound
  obtain ⟨own, -, rfl⟩ := List.mem_map.1 hmem
  exact ⟨entry, hentry, rfl⟩

/-- Merging patterns changes nothing but the tags: many patterns make an automaton if each of them
does, the error is that of the first one that does not, and the matches are those of the patterns,
one after the other, with their tags. -/
theorem ofPatterns_concat (patterns : List (Text × τ)) :
    ((∃ automaton, ofPatterns patterns = .ok automaton) ↔
      ∀ entry ∈ patterns, ∃ single, ofPattern entry.1 = .ok single) ∧
    (∀ e, ofPatterns patterns = .error e ↔
      ∃ before pattern tag after, patterns = before ++ (pattern, tag) :: after ∧
        (∀ entry ∈ before, ∃ single, ofPattern entry.1 = .ok single) ∧
        ofPattern pattern = .error e) ∧
    ∀ automaton, ofPatterns patterns = .ok automaton → ∀ input,
      (automaton.matchesOf input).toList = patterns.flatMap fun (pattern, tag) =>
        (matchesOfPattern pattern input).map (Match.retag tag) := by
  refine ⟨?_, ?_, ?_⟩
  · rw [exists_ofPatterns_eq_ok_iff]
    simp only [exists_ofPattern_eq_ok_iff]
  · intro e
    simp only [ofPatterns_eq_error_iff, exists_ofPattern_eq_ok_iff, ofPattern_eq_error_iff,
      Prod.exists]
  · intro automaton h input
    obtain ⟨pools, hpools, rfl⟩ := ofPatterns_eq_ok_iff.1 h
    rw [toList_matchesOf fun path hpath => (isReady_of_mem_flatten hpools path hpath).ends]
    exact matches_of_forall₂ hpools input

/-- Patterns without captures among patterns with one, and one of them twice. -/
def mixedPatterns : List (Text × Nat) :=
  [(['a', 'b'], 1), ([':', 'x'], 2), (['a', '(', 'b', ')', '?'], 3), (['a', 'b'], 1)]

theorem ofPatterns_mixedPatterns : ∃ automaton, ofPatterns mixedPatterns = .ok automaton ∧
    (automaton.matchesOf ['a', 'b']).toList =
      [⟨.empty, 1⟩, ⟨Params.ofCaptures [(['x'], ['a', 'b'])], 2⟩, ⟨.empty, 3⟩, ⟨.empty, 1⟩] := by
  have hab : pathsOf ['a', 'b'] = .ok [[.fixed ['a', 'b'], .accept ()]] := by decide +kernel
  have hx : pathsOf [':', 'x'] = .ok [[.capture ['x'], .accept ()]] := by decide +kernel
  have hopt : pathsOf ['a', '(', 'b', ')', '?'] =
      .ok [[.fixed ['a', 'b'], .accept ()], [.fixed ['a'], .accept ()]] := by decide +kernel
  obtain ⟨automaton, h⟩ := (ofPatterns_concat mixedPatterns).1.2 (by
    simp [mixedPatterns, exists_ofPattern_eq_ok_iff, hab, hx, hopt])
  refine ⟨automaton, h, ((ofPatterns_concat mixedPatterns).2.2 automaton h _).trans ?_⟩
  simp only [mixedPatterns, List.flatMap_cons, List.flatMap_nil, matchesOfPattern_eq hab,
    matchesOfPattern_eq hx, matchesOfPattern_eq hopt]
  decide +kernel

end Automaton

end RoutePattern
