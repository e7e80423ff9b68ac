import RoutePattern.Proofs.Automaton.Search

/-!
# What an automaton knows before it searches

The summaries of a pool are sound for every cut of an input along one of its paths: the input is
at least `leastLength` and at most `greatestLength?` bytes long and ends with `tail`. So an input
that `mayMatch` refuses has no cut (`mayMatch_of_cut`). A path without captures has one cut, of its
text (`cuts_of_literalText?`), so if no path has a capture the look-up of the text finds just the
end states of these cuts (`accepted_of_onlyFixed`).
-/

namespace RoutePattern

variable {τ : Type}

/-! ## Texts in order -/

namespace Text

theorem mem_eraseReps_loop {first other : Text} {rest done : List Text} :
    other ∈ List.eraseRepsBy.loop (fun a b => a == b) first rest done ↔
      other = first ∨ other ∈ rest ∨ other ∈ done := by
  induction rest generalizing first done with
  | nil => simp [List.eraseRepsBy.loop, or_comm]
  | cons next rest ih =>
    rw [List.eraseRepsBy.loop]
    split
    · next heq =>
      obtain rfl : first = next := by simpa using heq
      rw [ih, List.mem_cons]
      tauto
    · rw [ih, List.mem_cons, List.mem_cons]
      tauto

theorem mem_sortedDistinct_iff {texts : List Text} {text : Text} :
    text ∈ sortedDistinct texts ↔ text ∈ texts := by
  have hsort : text ∈ texts.mergeSort le ↔ text ∈ texts := List.mem_mergeSort
  rw [← hsort, sortedDistinct, List.eraseReps]
  cases texts.mergeSort le with
  | nil => rfl
  | cons first rest => simp [List.eraseRepsBy, mem_eraseReps_loop]

end Text

/-! ## One path -/

namespace Path

theorem leastLength_le_of_cut {path : Path τ} {input : Text} {pieces : List Text}
    (h : path.Cut input pieces) : path.leastLength ≤ input.byteLength := by
  induction path generalizing input pieces with
  | nil => simp [leastLength]
  | cons kind path ih =>
    cases kind with
    | start => exact ih (cut_start_iff.1 h)
    | accept tag => exact ih (cut_accept_iff.1 h)
    | fixed text =>
      obtain ⟨left, others, rfl, -, hothers⟩ := cut_fixed_iff.1 h
      have := ih hothers
      rw [leastLength, Text.byteLength_append]
      omega
    | capture name =>
      obtain ⟨value, left, others, rfl, -, hvalue, hothers⟩ := cut_capture_iff.1 h
      have := ih hothers
      have hpos := List.length_pos_iff.2 hvalue.1
      have hbytes := Text.length_le_byteLength value
      rw [leastLength, Text.byteLength_append]
      omega

theorem byteLength_le_of_cut {path : Path τ} {bound : Nat} {input : Text} {pieces : List Text}
    (hbound : path.greatestLength? = some bound) (h : path.Cut input pieces) :
    input.byteLength ≤ bound := by
  induction path generalizing bound input pieces with
  | nil =>
    obtain ⟨rfl, -⟩ := cut_nil_iff.1 h
    simp
  | cons kind path ih =>
    cases kind with
    | start => exact ih hbound (cut_start_iff.1 h)
    | accept tag => exact ih hbound (cut_accept_iff.1 h)
    | fixed text =>
      obtain ⟨left, others, rfl, -, hothers⟩ := cut_fixed_iff.1 h
      obtain ⟨rest, hrest, rfl⟩ := Option.map_eq_some_iff.1 hbound
      have := ih hrest hothers
      rw [Text.byteLength_append]
      omega
    | capture name => simp [greatestLength?] at hbound

/-- The text that `tail` takes from the last state that is no end state. -/
theorem tail_cons (kind : Kind τ) (path : Path τ) :
    tail (kind :: path) =
      if path.all Kind.isAccept then (match kind with | .fixed text => text | _ => []) else
        path.tail := by
  simp only [tail, List.reverse_cons, List.find?_append]
  cases hfind : path.reverse.find? fun kind => !kind.isAccept with
  | none =>
    have hall : path.all Kind.isAccept = true := by simpa using hfind
    cases kind <;> simp [hall, Kind.isAccept]
  | some other =>
    have hsome := List.find?_some hfind
    have hmem := List.mem_of_find?_eq_some hfind
    have hall : path.all Kind.isAccept = false :=
      List.all_eq_false.2 ⟨other, List.mem_reverse.1 hmem, by simpa using hsome⟩
    simp [hall]

theorem eq_nil_of_cut_of_all_isAccept {path : Path τ} {input : Text} {pieces : List Text}
    (hall : path.all Kind.isAccept = true) (h : path.Cut input pieces) : input = [] := by
  induction path generalizing input pieces with
  | nil => exact (cut_nil_iff.1 h).1
  | cons kind path ih =>
    rw [List.all_cons, Bool.and_eq_true] at hall
    cases kind with
    | accept tag => exact ih hall.2 (cut_accept_iff.1 h)
    | start => simp [Kind.isAccept] at hall
    | fixed text => simp [Kind.isAccept] at hall
    | capture name => simp [Kind.isAccept] at hall

theorem tail_isSuffix_of_cut {path : Path τ} {input : Text} {pieces : List Text}
    (h : path.Cut input pieces) : path.tail <:+ input := by
  induction path generalizing input pieces with
  | nil => exact List.nil_suffix
  | cons kind path ih =>
    rw [tail_cons]
    cases kind with
    | start =>
      split
      · exact List.nil_suffix
      · exact ih (cut_start_iff.1 h)
    | accept tag =>
      split
      · exact List.nil_suffix
      · exact ih (cut_accept_iff.1 h)
    | fixed text =>
      obtain ⟨left, others, rfl, -, hothers⟩ := cut_fixed_iff.1 h
      split
      · next hall =>
        obtain rfl := eq_nil_of_cut_of_all_isAccept hall hothers
        simp
      · exact (ih hothers).trans (List.suffix_append _ _)
    | capture name =>
      obtain ⟨value, left, others, rfl, -, -, hothers⟩ := cut_capture_iff.1 h
      split
      · exact List.nil_suffix
      · exact (ih hothers).trans (List.suffix_append _ _)

/-- A path without captures has one cut: its literals cut its text. -/
theorem cuts_of_literalText? {path : Path τ} {text : Text} (h : path.literalText? = some text) :
    ∃ pieces, path.captured pieces = [] ∧
      ∀ input, path.cuts input = if input = text then [pieces] else [] := by
  induction path generalizing text with
  | nil =>
    obtain rfl : [] = text := Option.some.inj h
    exact ⟨[], rfl, fun input => rfl⟩
  | cons kind path ih =>
    cases kind with
    | start => exact ih h
    | accept tag => exact ih h
    | capture name => simp [literalText?] at h
    | fixed lead =>
      obtain ⟨rest, hrest, rfl⟩ := Option.map_eq_some_iff.1 h
      obtain ⟨pieces, hcaptured, hcuts⟩ := ih hrest
      refine ⟨lead :: pieces, hcaptured, ?_⟩
      intro input
      rw [cuts]
      by_cases hinput : input = lead ++ rest
      · rw [Text.isPrefixOf?_eq_some_iff.2 hinput]
        simp [hcuts, hinput]
      · cases hlead : lead.isPrefixOf? input with
        | none => simp [hinput]
        | some left =>
          obtain rfl := Text.isPrefixOf?_eq_some_iff.1 hlead
          have hleft : left ≠ rest := by
            intro he
            exact hinput (by rw [he])
          simp [hcuts, hleft]

/-- What a path without captures finds: its text, without parameters. -/
theorem Ends.matches_of_literalText? {path : Path τ} {tag : τ} {text : Text} (hends : path.Ends tag)
    (h : path.literalText? = some text) (input : Text) :
    path.matches input = if text = input then [⟨.empty, tag⟩] else [] := by
  obtain ⟨pieces, hcaptured, hcuts⟩ := cuts_of_literalText? h
  rw [hends.matches, hcuts]
  by_cases he : text = input
  · simp [he, hcaptured, Params.ofCaptures, Params.insertAll]
  · simp [he, Ne.symm he]

end Path

/-! ## The pool -/

namespace Automaton

theorem le_foldl_max_of_mem {lengths : List Nat} {length : Nat} (h : length ∈ lengths) :
    length ≤ lengths.foldl max 0 := by
  rw [List.foldl_max]
  exact Nat.le_trans (List.le_max?_getD_of_mem h) (Nat.le_max_right _ _)

/-- An input with a cut along a path of the pool is not refused. -/
theorem mayMatch_of_cut {paths : List (Path τ)} {path : Path τ} (hpath : path ∈ paths)
    {input : Text} {pieces : List Text} (hcut : path.Cut input pieces) :
    (ofNormal paths).mayMatch input = true := by
  simp only [mayMatch, ofNormal, Bool.and_eq_true]
  refine ⟨⟨decide_eq_true ?_, ?_⟩, ?_⟩
  · have hleast : path.leastLength ∈ paths.map Path.leastLength := List.mem_map_of_mem hpath
    exact Nat.le_trans (List.min?_getD_le_of_mem hleast) (Path.leastLength_le_of_cut hcut)
  · rw [Option.all_eq_true]
    intro bound hbound
    obtain ⟨lengths, hlengths, rfl⟩ := Option.map_eq_some_iff.1 hbound
    obtain ⟨length, hmem, hlength⟩ := exists_mem_of_forall₂ (mapM_eq_some_iff.1 hlengths).flip hpath
    have hle := Path.byteLength_le_of_cut hlength hcut
    exact decide_eq_true (Nat.le_trans hle (le_foldl_max_of_mem hmem))
  · refine Bool.or_eq_true_iff.2 (.inr (List.any_eq_true.2 ⟨path.tail, ?_, ?_⟩))
    · exact Text.mem_sortedDistinct_iff.2 (List.mem_map_of_mem hpath)
    · exact List.isSuffixOf_iff_suffix.2 (Path.tail_isSuffix_of_cut hcut)

/-- What `mayMatch` refuses has no cut along any path. -/
theorem matches_eq_nil_of_mayMatch_eq_false {paths : List (Path τ)} {input : Text}
    (h : (ofNormal paths).mayMatch input = false) {path : Path τ} (hpath : path ∈ paths) :
    path.matches input = [] := by
  have hcuts : path.cuts input = [] := by
    apply List.eq_nil_iff_forall_not_mem.2
    intro pieces hpieces
    have := mayMatch_of_cut hpath (Path.mem_cuts_iff.1 hpieces)
    rw [h] at this
    exact Bool.false_ne_true this
  rw [Path.matches, hcuts]
  split <;> rfl

/-- The end states that a look-up finds, path by path. -/
theorem filterMap_literals (first : Nat) {paths : List (Path τ)}
    (hfixed : ∀ path ∈ paths, ∃ text, path.literalText? = some text) (input : Text) :
    ((Path.literals first paths).filterMap fun (text, id) =>
      if text = input then some id else none) =
      ((Path.heads first paths).zip paths).filterMap fun (head, path) =>
        if path.literalText? = some input then some (head + path.length - 1) else none := by
  induction paths generalizing first with
  | nil => rfl
  | cons path paths ih =>
    rw [List.forall_mem_cons] at hfixed
    obtain ⟨⟨text, htext⟩, hfixed⟩ := hfixed
    simp only [Path.literals, Path.heads, htext, List.zip_cons_cons, List.filterMap_cons,
      ih _ hfixed, Option.some.injEq]

/-- If no path has a capture, the search comes to the end states that a look-up of the input
finds, in this order, and with no parameters. -/
theorem accepted_of_onlyFixed {paths : List (Path τ)}
    (hends : ∀ path ∈ paths, ∃ tag, path.Ends tag) (hfixed : (ofNormal paths).onlyFixed = true)
    (input : Text) :
    ((ofNormal paths).accepted (startStack input)).map (fun found => (found.1, found.2.params)) =
      ((ofNormal paths).endsOf input).map fun id => (id, .empty) := by
  have hfixed' : ∀ path ∈ paths, ∃ text, path.literalText? = some text := by
    simpa [ofNormal, Option.isSome_iff_exists] using hfixed
  have hends' : (ofNormal paths).endsOf input = _ := filterMap_literals 1 hfixed' input
  rw [accepted_startStack hends, hends', List.map_flatMap, List.map_filterMap,
    List.filterMap_eq_flatMap_toList]
  apply List.flatMap_congr
  rintro ⟨head, path⟩ hmem
  have hpath := (List.of_mem_zip hmem).2
  obtain ⟨tag, htag⟩ := hends path hpath
  obtain ⟨text, htext⟩ := hfixed' path hpath
  simp only [htag.matches_of_literalText? htext, htext, Option.some.injEq]
  split <;> rfl

end Automaton

end RoutePattern
