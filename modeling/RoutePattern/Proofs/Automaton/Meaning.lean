import RoutePattern.Proofs.Automaton.Patterns
import RoutePattern.Proofs.Graph.Compile
import RoutePattern.Proofs.Node.Meaning
import RoutePattern.Proofs.Node.Parse

/-!
# From a pattern to its matches

The stages between a pattern and its matches keep what is read. The paths of a pattern read what
its tree reads (`exists_reads_iff`), and the automaton of a pattern finds just this
(`matchesOf_eq_meaning`).
-/

namespace RoutePattern

/-- The parameters that a path finds are those of the captures that it reads. -/
theorem Path.Ends.exists_matches_iff {τ : Type} {path : Path τ} {tag : τ} (h : path.Ends tag)
    {input : Text} {params : Params} :
    (∃ found ∈ path.matches input, found.params = params) ↔
      ∃ captures, path.Reads input captures ∧ params.Records captures := by
  simp only [h.matches, List.mem_map, Path.mem_cuts_iff, Path.Reads, Params.records_iff]
  constructor
  · rintro ⟨_, ⟨pieces, hcut, rfl⟩, rfl⟩
    exact ⟨_, ⟨pieces, hcut, rfl⟩, rfl⟩
  · rintro ⟨_, ⟨pieces, hcut, rfl⟩, rfl⟩
    exact ⟨_, ⟨pieces, hcut, rfl⟩, rfl⟩

theorem Path.reads_concat_accept_iff {τ : Type} {path : Path τ} {tag : τ} {input : Text}
    {captures : List (Text × Text)} :
    Path.Reads (path ++ [.accept tag]) input captures ↔ path.Reads input captures := by
  simp [Path.reads_append_iff, Path.reads_accept_iff, Path.reads_nil_iff]

/-- The paths of a pattern read what its tree reads. -/
theorem exists_reads_iff {pattern : Text} {paths : List (Path Unit)}
    (h : pathsOf pattern = .ok paths) :
    ∃ nodes, parse pattern = .ok nodes ∧ ∀ input captures,
      (∃ path ∈ paths, path.Reads input captures) ↔ Node.ReadsSequence nodes input captures := by
  obtain ⟨nodes, graph, found, hnodes, hgraph, -, hfound, -, rfl⟩ := pathsOf_eq_ok_iff.1 h
  obtain ⟨own, hown, -, hwalks⟩ := (isTree_of_parse hnodes).exists_graph
  obtain rfl := Except.ok.inj (hgraph.symm.trans hown)
  refine ⟨nodes, hnodes, ?_⟩
  intro input captures
  rw [Node.readsSequence_iff, Shape.Reads]
  constructor
  · rintro ⟨_, hpath, hreads⟩
    obtain ⟨walk, hwalk, rfl⟩ := List.mem_map.1 (List.mem_eraseDups.1 hpath)
    obtain ⟨way, hway, rfl⟩ := (hwalks walk).1 ((mem_walks_iff hfound).1 hwalk)
    exact ⟨way, hway, Path.reads_concat_accept_iff.1 (Path.reads_normal_iff.1 hreads)⟩
  · rintro ⟨way, hway, hreads⟩
    have hwalk := (mem_walks_iff hfound).2 ((hwalks _).2 ⟨way, hway, rfl⟩)
    exact ⟨_, List.mem_eraseDups.2 (List.mem_map_of_mem hwalk),
      Path.reads_normal_iff.2 (Path.reads_concat_accept_iff.2 hreads)⟩

/-- The parameters that paths find are those of the captures that one of them reads. -/
theorem exists_mem_flatMap_matches_iff {τ : Type} {paths : List (Path τ)}
    (hends : ∀ path ∈ paths, ∃ tag, path.Ends tag) {input : Text} {params : Params} :
    (∃ found ∈ paths.flatMap fun path => path.matches input, found.params = params) ↔
      ∃ path ∈ paths, ∃ captures, path.Reads input captures ∧ params.Records captures := by
  constructor
  · rintro ⟨found, hfound, hparams⟩
    obtain ⟨path, hpath, hmatch⟩ := List.mem_flatMap.1 hfound
    obtain ⟨tag, htag⟩ := hends path hpath
    exact ⟨path, hpath, htag.exists_matches_iff.1 ⟨found, hmatch, hparams⟩⟩
  · rintro ⟨path, hpath, hreads⟩
    obtain ⟨tag, htag⟩ := hends path hpath
    obtain ⟨found, hmatch, hparams⟩ := htag.exists_matches_iff.2 hreads
    exact ⟨found, List.mem_flatMap.2 ⟨path, hpath, hmatch⟩, hparams⟩

/-- The paths of a pattern find the parameters that its tree records. -/
theorem exists_mem_matches_iff {pattern : Text} {paths : List (Path Unit)} {nodes : List Node}
    (hpaths : pathsOf pattern = .ok paths) (hnodes : parse pattern = .ok nodes) (input : Text)
    (params : Params) :
    (∃ found ∈ paths.flatMap fun path => path.matches input, found.params = params) ↔
      ∃ captures, Node.ReadsSequence nodes input captures ∧ params.Records captures := by
  obtain ⟨_, hown, hreads⟩ := exists_reads_iff hpaths
  obtain rfl := Except.ok.inj (hnodes.symm.trans hown)
  rw [exists_mem_flatMap_matches_iff fun path hpath => (isReady_of_pathsOf hpaths hpath).ends]
  simp only [← hreads]
  constructor
  · rintro ⟨path, hpath, captures, hread, hrecords⟩
    exact ⟨captures, ⟨path, hpath, hread⟩, hrecords⟩
  · rintro ⟨captures, ⟨path, hpath, hread⟩, hrecords⟩
    exact ⟨path, hpath, captures, hread, hrecords⟩

namespace Automaton

theorem isMatch_iff {τ : Type} {automaton : Automaton τ} {input : Text} :
    automaton.isMatch input = true ↔ ∃ found, found ∈ (automaton.matchesOf input).toList := by
  rw [isMatch, firstMatch?]
  cases hnext : (automaton.matchesOf input).next with
  | mk first left =>
    cases first with
    | none => simp [Matches.toList_of_next_none hnext]
    | some first => simp [Matches.toList_of_next_some hnext]

/-- The automaton of a pattern finds what the pattern means: its matches of an input have the
parameters that record the captures with which the tree of the pattern matches the input. -/
theorem matchesOf_eq_meaning {pattern : Text} {automaton : Automaton Unit}
    (h : ofPattern pattern = .ok automaton) :
    ∃ nodes, parse pattern = .ok nodes ∧ ∀ input,
      {params | ∃ found ∈ (automaton.matchesOf input).toList, found.params = params} =
        {params : Params | ∃ captures,
          Node.ReadsSequence nodes input captures ∧ params.Records captures} ∧
      (automaton.isMatch input = true ↔ ∃ captures, Node.ReadsSequence nodes input captures) := by
  obtain ⟨paths, hpaths, rfl⟩ := ofPattern_eq_ok_iff.1 h
  obtain ⟨nodes, hnodes, -⟩ := exists_reads_iff hpaths
  have hparams (input : Text) (params : Params) :
      (∃ found ∈ ((ofNormal paths).matchesOf input).toList, found.params = params) ↔
        ∃ captures, Node.ReadsSequence nodes input captures ∧ params.Records captures := by
    rw [toList_matchesOf fun path hpath => (isReady_of_pathsOf hpaths hpath).ends]
    exact exists_mem_matches_iff hpaths hnodes input params
  refine ⟨nodes, hnodes, ?_⟩
  intro input
  refine ⟨Set.ext (hparams input), ?_⟩
  rw [isMatch_iff]
  constructor
  · rintro ⟨found, hfound⟩
    obtain ⟨captures, hread, -⟩ := (hparams input found.params).1 ⟨found, hfound, rfl⟩
    exact ⟨captures, hread⟩
  · rintro ⟨captures, hread⟩
    obtain ⟨found, hfound, -⟩ := (hparams input (.ofCaptures captures)).2
      ⟨captures, hread, Params.records_iff.2 rfl⟩
    exact ⟨found, hfound⟩

/-- The pattern `(:x-)?:x`, whose first capture may be left out and is overridden otherwise. -/
def rangePattern : Text := ['(', ':', 'x', '-', ')', '?', ':', 'x']

theorem matchesOf_rangePattern : ∃ automaton, ofPattern rangePattern = .ok automaton ∧
    automaton.isMatch ['u', '-', 'v'] = true ∧
    ∃ found ∈ (automaton.matchesOf ['u', '-', 'v']).toList,
      found.params = .ofCaptures [(['x'], ['u']), (['x'], ['v'])] := by
  have hpaths : ∃ paths, pathsOf rangePattern = .ok paths :=
    ⟨[[.capture ['x'], .fixed ['-'], .capture ['x'], .accept ()], [.capture ['x'], .accept ()]],
      by decide +kernel⟩
  have hnodes : parse rangePattern = .ok [.group 1 [[.parameter 2 ['x'] false,
      .literal 3 ['-']]] true, .parameter 4 ['x'] false] := by decide +kernel
  obtain ⟨automaton, h⟩ := exists_ofPattern_eq_ok_iff.2 hpaths
  obtain ⟨nodes, hown, hmeaning⟩ := matchesOf_eq_meaning h
  obtain rfl := Except.ok.inj (hnodes.symm.trans hown)
  obtain ⟨hset, hmatch⟩ := hmeaning ['u', '-', 'v']
  have hu : IsValue ['x'] ['u'] := ⟨by simp, .inr (by simp)⟩
  have hv : IsValue ['x'] ['v'] := ⟨by simp, .inr (by simp)⟩
  have hfirst : Node.ReadsSequence [.parameter 2 ['x'] false, .literal 3 ['-']] ['u', '-']
      [(['x'], ['u'])] := .cons (.parameter hu) (.cons .literal .nil)
  have hreads : Node.ReadsSequence [.group 1 [[.parameter 2 ['x'] false, .literal 3 ['-']]] true,
      .parameter 4 ['x'] false] ['u', '-', 'v'] [(['x'], ['u']), (['x'], ['v'])] :=
    .cons (.group List.mem_cons_self hfirst) (.cons (.parameter hv) .nil)
  exact ⟨automaton, h, hmatch.2 ⟨_, hreads⟩,
    (Set.ext_iff.1 hset _).2 ⟨_, hreads, Params.records_iff.2 rfl⟩⟩

end Automaton

end RoutePattern
