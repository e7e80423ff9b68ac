import RoutePattern.Proofs.Automaton.Summaries

/-!
# The matches of an input

Whatever way `matchesOf` chooses, the matches are the cuts of the input along the paths of the pool
(`toList_matchesOf`).

* `toList_matchesOf_eq_cuts`: they come in pool order, those of one path by the lengths of their
  captures.
* `toList_matchesOf_eq_search`: the refusal by length and end and the look-up of texts leave out
  nothing and add nothing to what the search finds.
-/

namespace RoutePattern

variable {τ : Type}

namespace Automaton

/-! ## The order of the matches -/

theorem literalText?_of_capture_mem {name : Text} {path : Path τ} (h : .capture name ∈ path) :
    path.literalText? = none := by
  induction path with
  | nil => simp at h
  | cons kind path ih =>
    rcases List.mem_cons.1 h with rfl | hmem
    · rfl
    · cases kind <;> simp [Path.literalText?, ih hmem]

/-- A pool with a capture is searched, for every input that is not refused at once. -/
theorem matchesOf_eq_searchOf {paths : List (Path τ)} {automaton : Automaton τ}
    (h : ofPaths paths = .ok automaton)
    (hcapture : ∃ path ∈ paths, ∃ name, .capture name ∈ path) {input : Text}
    (hmay : automaton.mayMatch input = true) :
    automaton.matchesOf input = automaton.searchOf input := by
  obtain ⟨path, hpath, name, hname⟩ := hcapture
  obtain ⟨rfl, -⟩ := ofPaths_eq_ok_iff.1 h
  have hnormal : .capture name ∈ path.normal := (Path.mem_normal_iff (by simp)).2 hname
  have hfixed : (ofNormal (paths.map Path.normal)).onlyFixed = false := by
    simp only [ofNormal, List.all_eq_false, List.mem_map]
    exact ⟨path.normal, ⟨path, hpath, rfl⟩, by simp [literalText?_of_capture_mem hnormal]⟩
  simp [matchesOf, searchOf, hmay, hfixed]

/-- Asking for the next match until there is none lists, for each path of the pool in order, the
cuts of the input along its normal form: all of them, each once, a shorter first capture first. A
match carries the tag at the end of its path and what its captures record. -/
theorem toList_matchesOf_eq_cuts {paths : List (Path τ)} {automaton : Automaton τ}
    (h : ofPaths paths = .ok automaton)
    (hcapture : ∃ path ∈ paths, ∃ name, .capture name ∈ path) {input : Text}
    (hmay : automaton.mayMatch input = true) :
    (automaton.matchesOf input).toList = (paths.flatMap fun path => path.normal.matches input) ∧
      ∀ path ∈ paths,
        (∃ tag, path.normal.getLast? = some (.accept tag) ∧
          path.normal.matches input = (path.normal.cuts input).map fun pieces =>
            ⟨.ofCaptures (path.normal.captured pieces), tag⟩) ∧
        (∀ pieces, pieces ∈ path.normal.cuts input ↔ path.normal.Cut input pieces) ∧
        ((path.normal.cuts input).Pairwise fun a b =>
          path.normal.captureLengths a < path.normal.captureLengths b) ∧
        (path.normal.cuts input).Nodup ∧
        ∀ pieces, (Params.ofCaptures (path.normal.captured pieces)).Records
          (path.normal.captured pieces) := by
  have hends := ends_of_ofPaths h
  rw [matchesOf_eq_searchOf h hcapture hmay, (ofPaths_eq_ok_iff.1 h).1,
    toList_searchOf_ofNormal hends, List.flatMap_map]
  refine ⟨rfl, ?_⟩
  intro path hpath
  obtain ⟨tag, htag⟩ := hends path.normal (List.mem_map_of_mem hpath)
  exact ⟨⟨tag, htag.getLast?, htag.matches input⟩, fun _ => Path.mem_cuts_iff,
    Path.pairwise_cuts _ input, Path.nodup_cuts _ input, fun _ => Params.records_iff.2 rfl⟩

/-- Two paths with captures; the input `x-y-z` has two cuts along the first one. -/
def dashPaths : List (Path Nat) :=
  [[.capture ['a'], .fixed ['-'], .capture ['b'], .accept 0],
    [.fixed ['x'], .fixed ['-'], .capture remainderName, .accept 1]]

theorem toList_matchesOf_dashPaths : ∃ automaton, ofPaths dashPaths = .ok automaton ∧
    automaton.mayMatch ['x', '-', 'y', '-', 'z'] = true ∧
    (automaton.matchesOf ['x', '-', 'y', '-', 'z']).toList =
      [⟨.ofCaptures [(['a'], ['x']), (['b'], ['y', '-', 'z'])], 0⟩,
        ⟨.ofCaptures [(['a'], ['x', '-', 'y']), (['b'], ['z'])], 0⟩,
        ⟨.ofCaptures [(remainderName, ['y', '-', 'z'])], 1⟩] := by
  have hok : ofPaths dashPaths = .ok (ofNormal (dashPaths.map Path.normal)) := rfl
  have hcut : Path.Cut [.capture ['a'], .fixed ['-'], .capture ['b'], .accept 0]
      ['x', '-', 'y', '-', 'z'] [['x'], ['-'], ['y', '-', 'z']] :=
    Path.mem_cuts_iff.1 (by decide +kernel)
  have hmay : (ofNormal (dashPaths.map Path.normal)).mayMatch ['x', '-', 'y', '-', 'z'] = true :=
    mayMatch_of_cut List.mem_cons_self hcut
  have hcapture : ∃ path ∈ dashPaths, ∃ name, Kind.capture name ∈ path :=
    ⟨_, List.mem_cons_self, ['a'], by decide⟩
  exact ⟨_, hok, hmay, (toList_matchesOf_eq_cuts hok hcapture hmay).1.trans (by decide +kernel)⟩

/-! ## Without a search -/

/-- An end state is found with its own tag. -/
theorem tag?_of_mem_accepted {automaton : Automaton τ} {stack : List Frame}
    {found : Nat × Match τ} (h : found ∈ automaton.accepted stack) :
    automaton.tag? found.1 = some found.2.tag := by
  fun_induction accepted automaton stack with
  | case1 => simp at h
  | case2 top below ih =>
    rcases List.mem_append.1 h with h | h
    · obtain ⟨result, hresult, rfl⟩ := List.mem_map.1 h
      rw [Option.mem_toList, found?] at hresult
      split at hresult
      · next tag htag =>
        split at hresult
        · obtain rfl := Option.some.inj hresult
          exact htag
        · simp at hresult
      · simp at hresult
    · exact ih h

/-- End states listed with their own tags are the matches that a look-up enumerates. -/
theorem toList_ends {automaton : Automaton τ} (input : Text) {found : List (Nat × Match τ)}
    (h : ∀ entry ∈ found,
      automaton.tag? entry.1 = some entry.2.tag ∧ entry.2.params = .empty) :
    (Matches.mk automaton input (.ends (found.map Prod.fst))).toList = found.map Prod.snd := by
  induction found with
  | nil => exact Matches.toList_of_next_none (rfl : _ = (none, Matches.mk automaton input .done))
  | cons entry found ih =>
    rw [List.forall_mem_cons] at h
    obtain ⟨⟨htag, hparams⟩, hfound⟩ := h
    have hentry : entry.2 = ⟨.empty, entry.2.tag⟩ := by
      rw [← hparams]
    have hnext : (Matches.mk automaton input (.ends ((entry :: found).map Prod.fst))).next =
        (some entry.2, ⟨automaton, input, .ends (found.map Prod.fst)⟩) := by
      rw [hentry]
      simp [Matches.next, htag, Matches.proceed]
    rw [Matches.toList_of_next_some hnext, ih hfound, List.map_cons]

/-- Without captures the look-up of an input enumerates what the search finds. -/
theorem toList_endsOf {paths : List (Path τ)} (hends : ∀ path ∈ paths, ∃ tag, path.Ends tag)
    (hfixed : (ofNormal paths).onlyFixed = true) (input : Text) :
    (Matches.mk (ofNormal paths) input (.ends ((ofNormal paths).endsOf input))).toList =
      ((ofNormal paths).accepted (startStack input)).map Prod.snd := by
  have haccepted := accepted_of_onlyFixed hends hfixed input
  have hids : (ofNormal paths).endsOf input =
      ((ofNormal paths).accepted (startStack input)).map Prod.fst := by
    have := congrArg (List.map Prod.fst) haccepted
    simpa [Function.comp_def] using this.symm
  rw [hids]
  refine toList_ends input fun entry hentry => ⟨tag?_of_mem_accepted hentry, ?_⟩
  have hmem : (entry.1, entry.2.params) ∈
      ((ofNormal paths).endsOf input).map fun id => (id, Params.empty) := by
    rw [← haccepted]
    exact List.mem_map.2 ⟨entry, hentry, rfl⟩
  obtain ⟨id, -, hid⟩ := List.mem_map.1 hmem
  exact (congrArg Prod.snd hid).symm

theorem flatMap_matches_of_mayMatch_eq_false {paths : List (Path τ)} {input : Text}
    (h : (ofNormal paths).mayMatch input = false) :
    (paths.flatMap fun path => path.matches input) = [] :=
  List.flatMap_eq_nil_iff.2 fun _ hpath => matches_eq_nil_of_mayMatch_eq_false h hpath

/-- However the matches of an input are found, they are its cuts along the paths of the pool. -/
theorem toList_matchesOf {paths : List (Path τ)} (hends : ∀ path ∈ paths, ∃ tag, path.Ends tag)
    (input : Text) :
    ((ofNormal paths).matchesOf input).toList = paths.flatMap fun path => path.matches input := by
  unfold matchesOf
  cases hmay : (ofNormal paths).mayMatch input with
  | false =>
    rw [flatMap_matches_of_mayMatch_eq_false hmay]
    exact Matches.toList_of_next_none (rfl : _ = (none, Matches.mk (ofNormal paths) input .done))
  | true =>
    rw [← toList_searchOf_ofNormal hends, toList_searchOf]
    cases hfixed : (ofNormal paths).onlyFixed with
    | false => exact toList_searchOf (ofNormal paths) input
    | true => exact toList_endsOf hends hfixed input

/-- The short ways of `matchesOf` are only short: for every input the matches are those of the
search from the start state. An input that is refused lets the search find nothing. If no path has
a capture, the look-up gives the end states that the search comes to, in this order and as often,
and the search finds no parameters. -/
theorem toList_matchesOf_eq_search {paths : List (Path τ)} {automaton : Automaton τ}
    (h : ofPaths paths = .ok automaton) (input : Text) :
    (automaton.matchesOf input).toList = (automaton.searchOf input).toList ∧
      (automaton.searchOf input).toList =
        (automaton.accepted (startStack input)).map Prod.snd ∧
      (automaton.mayMatch input = false → (automaton.searchOf input).toList = []) ∧
      (automaton.onlyFixed = true →
        ((automaton.accepted (startStack input)).map fun found => (found.1, found.2.params)) =
          (automaton.endsOf input).map fun id => (id, .empty)) := by
  have hends := ends_of_ofPaths h
  obtain ⟨rfl, -⟩ := ofPaths_eq_ok_iff.1 h
  refine ⟨?_, toList_searchOf _ input, ?_, ?_⟩
  · rw [toList_matchesOf hends, toList_searchOf_ofNormal hends]
  · intro hmay
    rw [toList_searchOf_ofNormal hends, flatMap_matches_of_mayMatch_eq_false hmay]
  · intro hfixed
    exact accepted_of_onlyFixed hends hfixed input

/-- Paths without captures: an end alone, a start inside, an empty text, and one path twice. -/
def plainPaths : List (Path Nat) :=
  [[.accept 7], [.fixed ['a'], .accept 1], [.start, .fixed ['a'], .accept 2],
    [.fixed [], .fixed ['a'], .accept 1]]

theorem toList_matchesOf_plainPaths : ∃ automaton, ofPaths plainPaths = .ok automaton ∧
    (automaton.matchesOf ['a']).toList = (automaton.searchOf ['a']).toList ∧
    (automaton.searchOf ['b', 'b']).toList = [] ∧
    ((automaton.accepted (startStack ['a'])).map fun found => (found.1, found.2.params)) =
      [(3, .empty), (6, .empty), (8, .empty)] := by
  have hok : ofPaths plainPaths = .ok (ofNormal (plainPaths.map Path.normal)) := rfl
  obtain ⟨hsame, -, -, hends⟩ := toList_matchesOf_eq_search hok ['a']
  have hrefused : (ofNormal (plainPaths.map Path.normal)).mayMatch ['b', 'b'] = false := by
    decide +kernel
  obtain ⟨-, -, hempty, -⟩ := toList_matchesOf_eq_search hok ['b', 'b']
  exact ⟨_, hok, hsame, hempty hrefused, (hends rfl).trans (by decide +kernel)⟩

end Automaton

end RoutePattern
