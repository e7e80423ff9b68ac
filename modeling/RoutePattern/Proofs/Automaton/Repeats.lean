import RoutePattern.Proofs.Automaton.Outcome

/-!
# Matches that repeat

The matches of a pattern come from readings, each a path with what its captures took, and no
reading comes twice (`nodup_readings`). A match forgets its path and, of a name that was captured
more than once, all texts but the last. So two readings give the same match only if they are of one
path that has a name twice, or of two paths that capture the same names
(`toList_matchesOf_eq_readings`). Both happen (`toList_matchesOf_repeated`).
-/

namespace RoutePattern

variable {τ : Type}

/-! ## Captures with the same record -/

/-- Captures with the same record have the same names. -/
theorem mem_names_iff_of_ofCaptures_eq {captures others : List (Text × Text)}
    (h : Params.ofCaptures captures = .ofCaptures others) (name : Text) :
    name ∈ captures.map Prod.fst ↔ name ∈ others.map Prod.fst := by
  rw [← not_iff_not, ← lastValue?_eq_none_iff, ← lastValue?_eq_none_iff,
    ← Params.get?_ofCaptures, ← Params.get?_ofCaptures, h]

/-- Captures of the same names in the same order, each name once, are told apart by what they
record. -/
theorem captures_eq_of_lastValue? {captures others : List (Text × Text)}
    (hnames : captures.map Prod.fst = others.map Prod.fst)
    (hnodup : (captures.map Prod.fst).Nodup)
    (h : ∀ name, lastValue? captures name = lastValue? others name) : captures = others := by
  induction captures generalizing others with
  | nil => exact (List.map_eq_nil_iff.1 hnames.symm).symm
  | cons capture captures ih =>
    cases others with
    | nil => cases hnames
    | cons other others =>
      obtain ⟨hname, hrest⟩ := List.cons.inj hnames
      obtain ⟨hnew, hdistinct⟩ := List.nodup_cons.1 hnodup
      have hlast (name : Text) : lastValue? captures name = lastValue? others name ∧
          (name = capture.1 → capture.2 = other.2) := by
        have hboth := h name
        rw [lastValue?_cons, lastValue?_cons, ← hname] at hboth
        by_cases hfirst : name = capture.1
        · -- The name of the first capture is not captured again on either side.
          subst hfirst
          have hleft := lastValue?_eq_none_iff.2 hnew
          have hright := lastValue?_eq_none_iff.2 (hrest ▸ hnew)
          rw [hleft, hright] at hboth
          exact ⟨hleft.trans hright.symm, fun _ => by simpa using hboth⟩
        · exact ⟨by simpa [hfirst] using hboth, fun he => absurd he hfirst⟩
      rw [ih hrest hdistinct fun name => (hlast name).1, Prod.ext hname ((hlast _).2 rfl)]

namespace Path

/-- The names of the captures of a path in their order. -/
def names : Path τ → List Text
  | [] => []
  | .capture name :: path => name :: names path
  | _ :: path => names path

theorem names_prepend (kind : Kind τ) (path : Path τ) :
    names (prepend kind path) = names (kind :: path) := by
  rcases prepend_cases kind path with ⟨rfl, h⟩ | ⟨c, text, next, others, rfl, rfl, h⟩ | h
  · rw [h]
    rfl
  · rw [h]
    rfl
  · rw [h]

theorem names_normal (path : Path τ) : path.normal.names = path.names := by
  induction path with
  | nil => rfl
  | cons kind path ih =>
    rw [normal_cons, names_prepend]
    cases kind with
    | capture name => rw [names, ih, names]
    | start => exact ih
    | fixed text => exact ih
    | accept tag => exact ih

theorem Reads.map_fst {path : Path τ} {input : Text} {captures : List (Text × Text)}
    (h : path.Reads input captures) : captures.map Prod.fst = path.names := by
  induction path generalizing input captures with
  | nil =>
    obtain ⟨-, rfl⟩ := reads_nil_iff.1 h
    rfl
  | cons kind path ih =>
    cases kind with
    | start => exact ih h
    | accept tag => exact ih h
    | fixed text =>
      obtain ⟨left, -, hleft⟩ := reads_fixed_iff.1 h
      exact ih hleft
    | capture name =>
      obtain ⟨value, left, others, -, rfl, -, hleft⟩ := reads_capture_iff.1 h
      rw [List.map_cons, ih hleft, names]

/-- A path whose states all take something, and without captures, has the normal form of the text
that it reads. -/
theorem normal_eq_of_names_eq_nil {takers : Path τ} {tag : τ} {input : Text}
    {captures : List (Text × Text)} (htakers : ∀ kind ∈ takers, kind.isTaker = true)
    (hnames : names (takers ++ [.accept tag]) = [])
    (h : Reads (takers ++ [.accept tag]) input captures) :
    normal (takers ++ [.accept tag]) = prepend (.fixed input) [.accept tag] := by
  induction takers generalizing input with
  | nil =>
    obtain ⟨rfl, -⟩ := reads_nil_iff.1 (reads_accept_iff.1 h)
    rfl
  | cons kind takers ih =>
    rw [List.forall_mem_cons] at htakers
    cases kind with
    | start => cases htakers.1
    | accept tag => cases htakers.1
    | capture name => cases hnames
    | fixed text =>
      obtain ⟨left, rfl, hleft⟩ := reads_fixed_iff.1 h
      rw [List.cons_append, normal_cons, ih htakers.2 hnames hleft]
      cases text <;> cases left <;> simp [prepend]

/-- What the captures of a path take in its cuts, no two cuts taking the same. -/
theorem nodup_map_captured (path : Path τ) (input : Text) :
    ((path.cuts input).map path.captured).Nodup := by
  refine List.pairwise_map.2 ((pairwise_cuts path input).imp fun hlt heq => ?_)
  rw [captureLengths, captureLengths, heq] at hlt
  exact List.lt_irrefl _ hlt

end Path

/-! ## Readings -/

/-- The readings of an input: a path with what its captures take, for every cut along it. -/
def readings (paths : List (Path τ)) (input : Text) : List (Path τ × List (Text × Text)) :=
  paths.flatMap fun path => (path.cuts input).map fun pieces => (path, path.captured pieces)

theorem mem_readings_iff {paths : List (Path τ)} {input : Text} {path : Path τ}
    {captures : List (Text × Text)} :
    (path, captures) ∈ readings paths input ↔ path ∈ paths ∧ path.Reads input captures := by
  simp only [readings, List.mem_flatMap, List.mem_map, Prod.mk.injEq, Path.mem_cuts_iff]
  constructor
  · rintro ⟨_, hpath, pieces, hpieces, rfl, rfl⟩
    exact ⟨hpath, pieces, hpieces, rfl⟩
  · rintro ⟨hpath, pieces, hpieces, rfl⟩
    exact ⟨path, hpath, pieces, hpieces, rfl, rfl⟩

/-- Different paths have no reading twice. -/
theorem nodup_readings {paths : List (Path τ)} (h : paths.Nodup) (input : Text) :
    (readings paths input).Nodup := by
  refine List.pairwise_flatMap.2 ⟨fun path _ => ?_, h.imp fun hne first hf second hs => ?_⟩
  · refine List.pairwise_map.2 ((List.pairwise_map.1 (path.nodup_map_captured input)).imp ?_)
    intro a b hne heq
    exact hne (congrArg Prod.snd heq)
  · obtain ⟨_, -, rfl⟩ := List.mem_map.1 hf
    obtain ⟨_, -, rfl⟩ := List.mem_map.1 hs
    exact fun heq => hne (congrArg Prod.fst heq)

theorem isTaker_of_leaf? {node : Node} {leaf : Leaf} (h : node.leaf? = some leaf) :
    leaf.kind.isTaker = true := by
  cases node with
  | literal id text => exact (Option.some.inj h) ▸ rfl
  | parameter id name optional => exact (Option.some.inj h) ▸ rfl
  | group id alternatives optional => cases h
  | separator id => cases h

/-- A path of a pattern is the normal form of states that all take something, and of its end. -/
theorem exists_takers_of_pathsOf {pattern : Text} {paths : List (Path Unit)}
    (h : pathsOf pattern = .ok paths) {path : Path Unit} (hpath : path ∈ paths) :
    ∃ takers : Path Unit, (∀ kind ∈ takers, kind.isTaker = true) ∧
      path = Path.normal (takers ++ [.accept ()]) := by
  obtain ⟨nodes, hparse, -⟩ := exists_pathsOf_eq_ok_iff.1 ⟨paths, h⟩
  obtain ⟨way, hway, rfl⟩ := ((mem_pathsOf_iff hparse h).2 path).1 hpath
  refine ⟨way.map Leaf.kind, fun kind hkind => ?_, rfl⟩
  obtain ⟨leaf, hleaf, rfl⟩ := List.mem_map.1 hkind
  obtain ⟨node, -, hnode⟩ := List.mem_filterMap.1 (Node.mem_leavesOf_of_mem_way hway hleaf)
  exact isTaker_of_leaf? hnode

/-- Two paths of a pattern without captures that read one input are the same. -/
theorem eq_of_names_eq_nil {pattern : Text} {paths : List (Path Unit)}
    (h : pathsOf pattern = .ok paths) {path other : Path Unit} (hpath : path ∈ paths)
    (hother : other ∈ paths) {input : Text} {captures more : List (Text × Text)}
    (hreads : path.Reads input captures) (hreadsOther : other.Reads input more)
    (hnames : path.names = []) (hnamesOther : other.names = []) : path = other := by
  have hnormal {path : Path Unit} (hpath : path ∈ paths) {captures : List (Text × Text)}
      (hreads : path.Reads input captures) (hnames : path.names = []) :
      path = Path.prepend (.fixed input) [.accept ()] := by
    obtain ⟨takers, htakers, rfl⟩ := exists_takers_of_pathsOf h hpath
    rw [Path.names_normal] at hnames
    exact Path.normal_eq_of_names_eq_nil htakers hnames (Path.reads_normal_iff.1 hreads)
  rw [hnormal hpath hreads hnames, hnormal hother hreadsOther hnamesOther]

namespace Automaton

theorem exists_toList_matchesOf {pattern : Text} {paths : List (Path Unit)}
    (h : pathsOf pattern = .ok paths) (input : Text) : ∃ automaton,
      ofPattern pattern = .ok automaton ∧
        (automaton.matchesOf input).toList = paths.flatMap fun path => path.matches input := by
  obtain ⟨automaton, hok⟩ := exists_ofPattern_eq_ok_iff.2 ⟨paths, h⟩
  have hmatches := matchesOfPattern_eq h input
  rw [matchesOfPattern, hok] at hmatches
  exact ⟨automaton, hok, hmatches⟩

/-- The paths of a pattern find what their readings record. -/
theorem flatMap_matches_eq {pattern : Text} {paths : List (Path Unit)}
    (h : pathsOf pattern = .ok paths) (input : Text) :
    (paths.flatMap fun path => path.matches input) =
      (readings paths input).map (fun reading => ⟨.ofCaptures reading.2, ()⟩) := by
  rw [readings, List.map_flatMap]
  refine List.flatMap_congr fun path hpath => ?_
  obtain ⟨tag, htag⟩ := (isReady_of_pathsOf h hpath).ends
  rw [htag.matches, List.map_map]
  rfl

/-- The matches of a pattern are those of its readings, in order, and no reading comes twice. Two of
them give the same match only if they are of one path that has the name of a capture twice, or of
two paths that capture the same names, at least one. -/
theorem toList_matchesOf_eq_readings {pattern : Text} {automaton : Automaton Unit}
    (h : ofPattern pattern = .ok automaton) (input : Text) :
    ∃ paths, pathsOf pattern = .ok paths ∧ paths.Nodup ∧
      (automaton.matchesOf input).toList =
        (readings paths input).map (fun reading => ⟨.ofCaptures reading.2, ()⟩) ∧
      (∀ path captures, (path, captures) ∈ readings paths input ↔
        path ∈ paths ∧ path.Reads input captures) ∧
      (readings paths input).Nodup ∧
      (readings paths input).Pairwise fun first second =>
        Params.ofCaptures first.2 = .ofCaptures second.2 →
          (first.1 = second.1 ∧ ¬ first.1.names.Nodup) ∨
          (first.1 ≠ second.1 ∧ first.1.names ≠ [] ∧
            ∀ name, name ∈ first.1.names ↔ name ∈ second.1.names) := by
  obtain ⟨paths, hpaths, rfl⟩ := ofPattern_eq_ok_iff.1 h
  obtain ⟨nodes, hparse, -⟩ := exists_pathsOf_eq_ok_iff.1 ⟨paths, hpaths⟩
  have hdistinct : paths.Nodup := (mem_pathsOf_iff hparse hpaths).1
  refine ⟨paths, hpaths, hdistinct, ?_, fun _ _ => mem_readings_iff,
    nodup_readings hdistinct input, ?_⟩
  · rw [toList_matchesOf fun path hpath => (isReady_of_pathsOf hpaths hpath).ends,
      flatMap_matches_eq hpaths]
  · refine (nodup_readings hdistinct input).imp_of_mem ?_
    rintro ⟨path, captures⟩ ⟨other, more⟩ hfirst hsecond hne hsame
    obtain ⟨hpath, hreads⟩ := mem_readings_iff.1 hfirst
    obtain ⟨hother, hreadsOther⟩ := mem_readings_iff.1 hsecond
    have hnames (name : Text) : name ∈ path.names ↔ name ∈ other.names := by
      rw [← hreads.map_fst, ← hreadsOther.map_fst]
      exact mem_names_iff_of_ofCaptures_eq hsame name
    by_cases heq : path = other
    · -- With each name once, what is recorded tells the readings of one path apart.
      subst heq
      refine .inl ⟨rfl, fun hnodup => hne ?_⟩
      rw [← hreads.map_fst] at hnodup
      rw [captures_eq_of_lastValue? (hreads.map_fst.trans hreadsOther.map_fst.symm) hnodup]
      intro name
      rw [← Params.get?_ofCaptures, hsame, Params.get?_ofCaptures]
    · -- Without captures the input is the text of the path, and so fixes its normal form.
      refine .inr ⟨heq, fun hnone => heq ?_, hnames⟩
      have hnoneOther : other.names = [] := by
        refine List.eq_nil_iff_forall_not_mem.2 fun name hname => ?_
        have hmem := (hnames name).2 hname
        rw [hnone] at hmem
        cases hmem
      exact eq_of_names_eq_nil hpaths hpath hother hreads hreadsOther hnone hnoneOther

/-- The pattern `:a-:b` has one path, which names each capture once, so no match of it repeats. -/
theorem nodup_matchesOf_dashed : ∃ automaton, ofPattern [':', 'a', '-', ':', 'b'] = .ok automaton ∧
    (automaton.matchesOf ['1', '-', '2', '-', '3']).toList =
      [⟨.ofCaptures [(['a'], ['1']), (['b'], ['2', '-', '3'])], ()⟩,
        ⟨.ofCaptures [(['a'], ['1', '-', '2']), (['b'], ['3'])], ()⟩] ∧
    (automaton.matchesOf ['1', '-', '2', '-', '3']).toList.Nodup := by
  have hpaths : pathsOf [':', 'a', '-', ':', 'b'] =
      .ok [[.capture ['a'], .fixed ['-'], .capture ['b'], .accept ()]] := by decide +kernel
  obtain ⟨automaton, h⟩ := exists_ofPattern_eq_ok_iff.2 ⟨_, hpaths⟩
  obtain ⟨paths, hown, -, hmatches, hmem, -, hpairs⟩ :=
    toList_matchesOf_eq_readings h ['1', '-', '2', '-', '3']
  obtain rfl := Except.ok.inj (hpaths.symm.trans hown)
  refine ⟨automaton, h, hmatches.trans (by decide +kernel), ?_⟩
  rw [hmatches]
  refine List.pairwise_map.2 (hpairs.imp_of_mem fun {first second} hfirst hsecond hpair heq => ?_)
  have hfirstPath := List.mem_singleton.1 ((hmem first.1 first.2).1 hfirst).1
  have hsecondPath := List.mem_singleton.1 ((hmem second.1 second.2).1 hsecond).1
  rcases hpair (congrArg Match.params heq) with ⟨-, hrepeats⟩ | ⟨hne, -⟩
  · rw [hfirstPath] at hrepeats
    exact hrepeats (by decide)
  · exact hne (hfirstPath.trans hsecondPath.symm)

/-- The two paths of `(-:a|:a-)` both capture `a`, and in `---` the same text. The one path of
`:a-:a-:a` captures `a` three times, and two of its cuts of `1-2-3-4` end with the same text. -/
theorem toList_matchesOf_repeated :
    (∃ automaton, ofPattern ['(', '-', ':', 'a', '|', ':', 'a', '-', ')'] = .ok automaton ∧
      (automaton.matchesOf ['-', '-', '-']).toList =
        [⟨.ofCaptures [(['a'], ['-', '-'])], ()⟩, ⟨.ofCaptures [(['a'], ['-', '-'])], ()⟩] ∧
      ¬ (automaton.matchesOf ['-', '-', '-']).toList.Nodup) ∧
    ∃ automaton, ofPattern [':', 'a', '-', ':', 'a', '-', ':', 'a'] = .ok automaton ∧
      (automaton.matchesOf ['1', '-', '2', '-', '3', '-', '4']).toList =
        [⟨.ofCaptures [(['a'], ['3', '-', '4'])], ()⟩, ⟨.ofCaptures [(['a'], ['4'])], ()⟩,
          ⟨.ofCaptures [(['a'], ['4'])], ()⟩] ∧
      ¬ (automaton.matchesOf ['1', '-', '2', '-', '3', '-', '4']).toList.Nodup := by
  have hmirror : pathsOf ['(', '-', ':', 'a', '|', ':', 'a', '-', ')'] =
      .ok [[.fixed ['-'], .capture ['a'], .accept ()],
        [.capture ['a'], .fixed ['-'], .accept ()]] := by decide +kernel
  have hchain : pathsOf [':', 'a', '-', ':', 'a', '-', ':', 'a'] =
      .ok [[.capture ['a'], .fixed ['-'], .capture ['a'], .fixed ['-'], .capture ['a'],
        .accept ()]] := by decide +kernel
  obtain ⟨mirror, hmirrorOk, hmirrorList⟩ := exists_toList_matchesOf hmirror ['-', '-', '-']
  obtain ⟨chain, hchainOk, hchainList⟩ :=
    exists_toList_matchesOf hchain ['1', '-', '2', '-', '3', '-', '4']
  have hmirrorTwice := hmirrorList.trans (show _ = [⟨.ofCaptures [(['a'], ['-', '-'])], ()⟩,
    ⟨.ofCaptures [(['a'], ['-', '-'])], ()⟩] by decide +kernel)
  have hchainTwice := hchainList.trans (show _ = [⟨.ofCaptures [(['a'], ['3', '-', '4'])], ()⟩,
    ⟨.ofCaptures [(['a'], ['4'])], ()⟩, ⟨.ofCaptures [(['a'], ['4'])], ()⟩] by decide +kernel)
  exact ⟨⟨mirror, hmirrorOk, hmirrorTwice, by simp [hmirrorTwice]⟩,
    chain, hchainOk, hchainTwice, by simp [hchainTwice]⟩

end Automaton

end RoutePattern
