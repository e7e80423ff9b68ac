import RoutePattern.Proofs.Automaton.Lengths
import RoutePattern.Proofs.Automaton.Meaning
import RoutePattern.Proofs.Automaton.Repeats
import RoutePattern.Proofs.Graph.Forward

/-!
# The names that an automaton captures

The states of an automaton are those of its paths and a start state, so it has a capture of a name
just if a path has one (`hasCapture_ofNormal`). A path has one just if a match along it holds the
name (`exists_match_iff`), and the paths of a pattern have one just if its tree has a parameter of
the name, since every leaf of the tree is on some way (`exists_mem_names_iff`). So what
`hasRemainder` says of the states is true of the patterns and of the matches (`hasRemainder_iff`).
-/

namespace RoutePattern

open Node

variable {τ υ : Type}

/-! ## Names of paths -/

namespace Path

theorem mem_names_iff {path : Path τ} {name : Text} :
    name ∈ path.names ↔ .capture name ∈ path := by
  induction path with
  | nil => simp [names]
  | cons kind path ih => cases kind <;> simp [names, ih]

theorem names_map (f : τ → υ) (path : Path τ) : names (path.map (Kind.map f)) = path.names := by
  induction path with
  | nil => rfl
  | cons kind path ih =>
    cases kind with
    | capture name => exact congrArg (name :: ·) ih
    | start => exact ih
    | fixed text => exact ih
    | accept tag => exact ih

theorem map_kind_chain (first : Nat) (path : Path τ) :
    (chain first path).map State.kind = path := by
  induction path generalizing first with
  | nil => rfl
  | cons kind path ih => rw [chain, List.map_cons, ih]

theorem map_kind_chains (first : Nat) (paths : List (Path τ)) :
    (chains first paths).map State.kind = paths.flatten := by
  induction paths generalizing first with
  | nil => rfl
  | cons path paths ih => rw [chains, List.map_append, map_kind_chain, ih, List.flatten_cons]

/-- The states of a layout are a start state and those of the paths. -/
theorem map_kind_layout (paths : List (Path τ)) :
    (layout paths).toList.map State.kind = .start :: paths.flatten :=
  congrArg (Kind.start :: ·) (map_kind_chains 1 paths)

end Path

/-! ## Names of trees -/

/-- The leaves that capture a name are the parameters of that name. -/
theorem exists_leaf_capture_iff {nodes : List Node} {name : Text} :
    (∃ leaf ∈ leavesOf nodes, leaf.kind = .capture name) ↔
      ∃ id optional, .parameter id name optional ∈ membersOfSequence nodes := by
  constructor
  · rintro ⟨leaf, hleaf, hkind⟩
    obtain ⟨node, hnode, hown⟩ := List.mem_filterMap.1 hleaf
    cases node with
    | literal id text =>
      obtain rfl := Option.some.inj hown
      cases hkind
    | parameter id other optional =>
      obtain rfl := Option.some.inj hown
      obtain rfl := Kind.capture.inj hkind
      exact ⟨id, optional, hnode⟩
    | group id alternatives optional => cases hown
    | separator id => cases hown
  · rintro ⟨id, optional, hnode⟩
    exact ⟨⟨id, .capture name⟩, List.mem_filterMap.2 ⟨_, hnode, rfl⟩, rfl⟩

/-- The paths of a pattern capture the names of its parameters. -/
theorem exists_mem_names_iff {pattern : Text} {nodes : List Node} {paths : List (Path Unit)}
    (hparse : parse pattern = .ok nodes) (hpaths : pathsOf pattern = .ok paths) {name : Text} :
    (∃ path ∈ paths, name ∈ path.names) ↔
      ∃ id optional, .parameter id name optional ∈ membersOfSequence nodes := by
  have hnames (way : List Leaf) :
      name ∈ (pathOf way).normal.names ↔ ∃ leaf ∈ way, leaf.kind = .capture name := by
    rw [Path.names_normal, Path.mem_names_iff, pathOf, List.mem_append, List.mem_map]
    simp
  rw [← exists_leaf_capture_iff]
  constructor
  · rintro ⟨path, hpath, hname⟩
    obtain ⟨way, hway, rfl⟩ := ((mem_pathsOf_iff hparse hpaths).2 path).1 hpath
    obtain ⟨leaf, hleaf, hkind⟩ := (hnames way).1 hname
    exact ⟨leaf, mem_leavesOf_of_mem_way hway hleaf, hkind⟩
  · rintro ⟨leaf, hleaf, hkind⟩
    have hthreaded : (shapeOfSequence true nodes).Threaded :=
      threaded_shapeOfSequence (isTree_of_parse hparse).sound
    rw [leavesOf, ← leaves_shapeOfSequence true] at hleaf
    obtain ⟨way, hway, hon⟩ := hthreaded.exists_mem leaf hleaf
    rw [← waysOfSequence_eq] at hway
    exact ⟨_, ((mem_pathsOf_iff hparse hpaths).2 _).2 ⟨way, hway, rfl⟩,
      (hnames way).2 ⟨leaf, hon, hkind⟩⟩

/-! ## Names of automata -/

namespace Automaton

theorem hasCapture_ofNormal {paths : List (Path τ)} {name : Text} :
    (ofNormal paths).hasCapture name = true ↔ ∃ path ∈ paths, name ∈ path.names := by
  have hstate (kind : Kind τ) : (∃ state ∈ (Path.layout paths).toList, state.kind = kind) ↔
      kind = .start ∨ kind ∈ paths.flatten := by
    rw [← List.mem_map, Path.map_kind_layout, List.mem_cons]
  rw [hasCapture, ← Array.any_toList, List.any_eq_true]
  constructor
  · rintro ⟨state, hmem, hname⟩
    cases hkind : state.kind with
    | start => simp [hkind] at hname
    | fixed text => simp [hkind] at hname
    | accept tag => simp [hkind] at hname
    | capture other =>
      obtain rfl : other = name := by simpa [hkind] using hname
      obtain ⟨path, hpath, hon⟩ :=
        List.mem_flatten.1 (((hstate _).1 ⟨state, hmem, hkind⟩).resolve_left nofun)
      exact ⟨path, hpath, Path.mem_names_iff.2 hon⟩
  · rintro ⟨path, hpath, hname⟩
    have hon : .capture name ∈ paths.flatten :=
      List.mem_flatten.2 ⟨path, hpath, Path.mem_names_iff.1 hname⟩
    obtain ⟨state, hmem, hkind⟩ := (hstate (.capture name)).2 (.inr hon)
    exact ⟨state, hmem, by simp [hkind]⟩

/-- A match along a path holds just the names of the path, and there is such a match. -/
theorem exists_match_iff {paths : List (Path τ)} (hends : ∀ path ∈ paths, ∃ tag, path.Ends tag)
    {name : Text} :
    (∃ input, ∃ found ∈ ((ofNormal paths).matchesOf input).toList,
      (found.params.get? name).isSome) ↔ ∃ path ∈ paths, name ∈ path.names := by
  have hheld {path : Path τ} {input : Text} {captures : List (Text × Text)}
      (hreads : path.Reads input captures) :
      ((Params.ofCaptures captures).get? name).isSome ↔ name ∈ path.names := by
    rw [Params.get?_ofCaptures, Option.isSome_iff_ne_none, Ne, lastValue?_eq_none_iff, not_not,
      hreads.map_fst]
  constructor
  · rintro ⟨input, found, hfound, hname⟩
    rw [toList_matchesOf hends] at hfound
    obtain ⟨path, hpath, captures, hreads, hrecords⟩ :=
      (exists_mem_flatMap_matches_iff hends).1 ⟨found, hfound, rfl⟩
    rw [Params.records_iff.1 hrecords] at hname
    exact ⟨path, hpath, (hheld hreads).1 hname⟩
  · rintro ⟨path, hpath, hname⟩
    obtain ⟨pieces, hcut⟩ := path.exists_cut_sample (Path.isValue_replicate · 0)
    have hreads : path.Reads (path.sample ['a']) (path.captured pieces) := ⟨pieces, hcut, rfl⟩
    obtain ⟨found, hfound, hparams⟩ := (exists_mem_flatMap_matches_iff hends).2
      ⟨path, hpath, _, hreads, Params.records_iff.2 rfl⟩
    refine ⟨path.sample ['a'], found, ?_, ?_⟩
    · rw [toList_matchesOf hends]
      exact hfound
    · rw [hparams]
      exact (hheld hreads).2 hname

/-- The pool of patterns captures the names of the parameters of their trees. -/
theorem exists_mem_flatten_iff {patterns : List (Text × τ)} {pools : List (List (Path τ))}
    (hpools : List.Forall₂ (fun entry pool => taggedPathsOf entry.1 entry.2 = .ok pool)
      patterns pools) {name : Text} :
    (∃ path ∈ pools.flatten, name ∈ path.names) ↔
      ∃ entry ∈ patterns, ∃ nodes, parse entry.1 = .ok nodes ∧
        ∃ id optional, .parameter id name optional ∈ membersOfSequence nodes := by
  have hpool {entry : Text × τ} {pool : List (Path τ)}
      (h : taggedPathsOf entry.1 entry.2 = .ok pool) :
      ∃ nodes, parse entry.1 = .ok nodes ∧ ((∃ path ∈ pool, name ∈ path.names) ↔
        ∃ id optional, .parameter id name optional ∈ membersOfSequence nodes) := by
    obtain ⟨paths, hpaths, rfl⟩ := taggedPathsOf_eq_ok_iff.1 h
    obtain ⟨nodes, hparse, -⟩ := exists_reads_iff hpaths
    refine ⟨nodes, hparse, ?_⟩
    rw [← exists_mem_names_iff hparse hpaths]
    simp [tagged, Path.names_map]
  constructor
  · rintro ⟨path, hpath, hname⟩
    obtain ⟨pool, hmem, hown⟩ := List.mem_flatten.1 hpath
    obtain ⟨entry, hentry, hok⟩ := exists_mem_of_forall₂ hpools hmem
    obtain ⟨nodes, hparse, hiff⟩ := hpool hok
    exact ⟨entry, hentry, nodes, hparse, hiff.1 ⟨path, hown, hname⟩⟩
  · rintro ⟨entry, hentry, nodes, hparse, hparameter⟩
    obtain ⟨pool, hmem, hok⟩ := exists_mem_of_forall₂ hpools.flip hentry
    obtain ⟨own, hown, hiff⟩ := hpool hok
    obtain rfl := Except.ok.inj (hparse.symm.trans hown)
    obtain ⟨path, hpath, hname⟩ := hiff.2 hparameter
    exact ⟨path, List.mem_flatten.2 ⟨pool, hmem, hpath⟩, hname⟩

/-- What an automaton of patterns says about the remainder is true: it has a capture of that name
just if a parameter of that name stands somewhere in the tree of a pattern, and just if there is a
match that holds it. -/
theorem hasRemainder_iff {patterns : List (Text × τ)} {automaton : Automaton τ}
    (h : ofPatterns patterns = .ok automaton) :
    (automaton.hasRemainder = true ↔
      ∃ entry ∈ patterns, ∃ nodes, parse entry.1 = .ok nodes ∧
        ∃ id optional, .parameter id remainderName optional ∈ membersOfSequence nodes) ∧
    (automaton.hasRemainder = true ↔
      ∃ input, ∃ found ∈ (automaton.matchesOf input).toList,
        (found.params.get? remainderName).isSome) := by
  obtain ⟨pools, hpools, rfl⟩ := ofPatterns_eq_ok_iff.1 h
  have hends : ∀ path ∈ pools.flatten, ∃ tag, path.Ends tag :=
    fun path hpath => (isReady_of_mem_flatten hpools path hpath).ends
  exact ⟨hasCapture_ofNormal.trans (exists_mem_flatten_iff hpools),
    hasCapture_ofNormal.trans (exists_match_iff hends).symm⟩

/-- The patterns `a` and `b(-(:_)?)?`, in the second of which the remainder can be left out. -/
def nestedPatterns : List (Text × Nat) :=
  [(['a'], 1), (['b', '(', '-', '(', ':', '_', ')', '?', ')', '?'], 2)]

theorem hasRemainder_nestedPatterns : ∃ automaton, ofPatterns nestedPatterns = .ok automaton ∧
    automaton.hasRemainder = true ∧ ∃ input, ∃ found ∈ (automaton.matchesOf input).toList,
      (found.params.get? remainderName).isSome := by
  have hplain : pathsOf ['a'] = .ok [[.fixed ['a'], .accept ()]] := by decide +kernel
  have hnested : pathsOf ['b', '(', '-', '(', ':', '_', ')', '?', ')', '?'] =
      .ok [[.fixed ['b', '-'], .capture ['_'], .accept ()], [.fixed ['b', '-'], .accept ()],
        [.fixed ['b'], .accept ()]] := by decide +kernel
  have hparse : parse ['b', '(', '-', '(', ':', '_', ')', '?', ')', '?'] =
      .ok [.literal 1 ['b'], .group 2 [[.literal 3 ['-'],
        .group 4 [[.parameter 5 ['_'] false]] true]] true] := by decide +kernel
  have hok : ∀ entry ∈ nestedPatterns, ∃ paths, pathsOf entry.1 = .ok paths := by
    simp [nestedPatterns, hplain, hnested]
  obtain ⟨automaton, h⟩ := exists_ofPatterns_eq_ok_iff.2 hok
  obtain ⟨hpatterns, hmatches⟩ := hasRemainder_iff h
  have hremainder : automaton.hasRemainder = true :=
    hpatterns.2 ⟨_, List.mem_cons_of_mem _ List.mem_cons_self, _, hparse, 5, false, by decide⟩
  exact ⟨automaton, h, hremainder, hmatches.1 hremainder⟩

end Automaton

end RoutePattern
