import RoutePattern.Proofs.Automaton.Repeats
import RoutePattern.Proofs.Node.Rendering
import RoutePattern.Proofs.Router.Descent

/-!
# Mounting under a fixed text

The pattern of a router that is mounted under a text without captures has three ways, and they match
different paths: the text, the text and a slash, and the text, a slash and more
(`exists_readings_mountPattern`). So each path has one match at most
(`matchesOfPattern_mountPattern`), and the mounted router is asked for the path behind the text,
with no parameters, as if it was asked alone (`yields_mount_escaped`).
-/

namespace RoutePattern

open Node

variable {η : Type}

/-! ## A text as a pattern -/

theorem getLast?_escaped (text : Text) : (escaped text).getLast? = text.getLast? := by
  induction text using List.reverseRecOn with
  | nil => rfl
  | append_singleton text c =>
    rw [escaped, List.flatMap_append, List.flatMap_singleton, escapedChar]
    split <;> simp

theorem dropTrailing_eq_self {c : Char} {text : Text} (h : text.getLast? ≠ some c) :
    text.dropTrailing c = text := by
  induction text using List.reverseRecOn with
  | nil => rfl
  | append_singleton text last =>
    have hlast : last ≠ c := by simpa using h
    simp [Text.dropTrailing, hlast]

namespace Draft

theorem readText_escaped (draft : Draft) (offset : Nat) (text : Text) :
    draft.readText offset (escaped text) = .ok (text.foldl addChar draft) := by
  induction text generalizing draft offset with
  | nil => rfl
  | cons c text ih =>
    rw [escaped, List.flatMap_cons, escapedChar]
    split
    · exact (readText_escape ..).trans (ih ..)
    · next hc =>
      rw [Bool.not_eq_true] at hc
      exact (readText_char (Segment.not_isReserved_of_not_isSpecial hc) ..).trans (ih ..)

theorem groups_foldl_addChar (draft : Draft) (text : Text) :
    (text.foldl addChar draft).groups = draft.groups := by
  induction text generalizing draft with
  | nil => rfl
  | cons c text ih => rw [List.foldl_cons, ih, groups_addChar]

theorem expands_foldl_addChar_iff (draft : Draft) (text : Text) (bound : Nat) :
    Expands (text.foldl addChar draft).nodes.reverse bound ↔ Expands draft.nodes.reverse bound := by
  induction text generalizing draft with
  | nil => rfl
  | cons c text ih => rw [List.foldl_cons, ih, expands_addChar_iff]

theorem foldl_addChar_literal (lastId id : Nat) (lead text : Text) :
    text.foldl addChar ⟨lastId, [.literal id lead], []⟩ =
      ⟨lastId, [.literal id (lead ++ text)], []⟩ := by
  induction text generalizing lead with
  | nil => rw [List.append_nil]; rfl
  | cons c text ih =>
    rw [List.foldl_cons, addChar]
    exact (ih _).trans (by rw [List.append_assoc]; rfl)

/-- One way leads through the characters of a text, and it matches just the text. -/
theorem exists_ways_foldl_addChar (text : Text) :
    ∃ lead, waysOfSequence (text.foldl addChar empty).nodes.reverse = [lead] ∧
      ∀ input captures, Path.Reads (lead.map Leaf.kind) input captures ↔
        input = text ∧ captures = [] := by
  cases text with
  | nil => exact ⟨[], rfl, fun input captures => Path.reads_nil_iff⟩
  | cons c text =>
    have hfirst : empty.addChar c = ⟨1, [.literal 1 [c]], []⟩ := rfl
    rw [List.foldl_cons, hfirst, foldl_addChar_literal]
    refine ⟨[⟨1, .fixed (c :: text)⟩], rfl, fun input captures => ?_⟩
    simp [Path.reads_fixed_iff, Path.reads_nil_iff]

end Draft

section Mounted

variable {text : Text}

/-- The ways of a text that is mounted begin with a part that matches just the text. -/
theorem exists_ways_mountPattern (hslash : text.getLast? ≠ some '/')
    (hshort : (Route.mountPattern (escaped text)).byteLength ≤ maxPatternLength) :
    ∃ nodes lead id, parse (Route.mountPattern (escaped text)) = .ok nodes ∧
      Expands nodes maxPaths ∧
      waysOfSequence nodes = (waysOfSequence [Draft.continuation id]).map (lead ++ ·) ∧
      ∀ input captures, Path.Reads (lead.map Leaf.kind) input captures ↔
        input = text ∧ captures = [] := by
  have hread := Draft.readText_escaped .empty 0 text
  have hescape := Draft.not_endsInEscape_of_readText hread
  have hsame : (escaped text).dropTrailing '/' = escaped text :=
    dropTrailing_eq_self (by rwa [getLast?_escaped])
  have hgroups := Draft.groups_foldl_addChar .empty text
  have hparse := (@parse_mountPattern_iff (escaped text) _ (hsame.symm ▸ hescape)).2
    ⟨hshort, _, hsame.symm ▸ hread, hgroups, rfl⟩
  obtain ⟨lead, hlead, hreads⟩ := Draft.exists_ways_foldl_addChar text
  refine ⟨_, lead, (text.foldl Draft.addChar .empty).lastId, hparse, ?_, ?_, hreads⟩
  · rw [Draft.expands_concat_continuation_iff (Draft.le_lastId_of_readText hread),
      Draft.expands_foldl_addChar_iff]
    exact expands_iff.2 (by decide)
  · rw [waysOfSequence_append, hlead, List.flatMap_singleton]

/-- The three ways as readings: the text, the text and a slash, the text and a slash before more. -/
theorem exists_readings_mountPattern {nodes : List Node} {lead : List Leaf} {id : Nat}
    {paths : List (Path Unit)} (hparse : parse (Route.mountPattern (escaped text)) = .ok nodes)
    (hpaths : pathsOf (Route.mountPattern (escaped text)) = .ok paths)
    (hways : waysOfSequence nodes = (waysOfSequence [Draft.continuation id]).map (lead ++ ·))
    (hlead : ∀ input captures, Path.Reads (lead.map Leaf.kind) input captures ↔
      input = text ∧ captures = []) :
    ∃ bare slashed followed : Path Unit, ∀ path captures input,
      (path, captures) ∈ readings paths input ↔
        path = bare ∧ input = text ∧ captures = [] ∨
        path = slashed ∧ input = text ++ ['/'] ∧ captures = [] ∨
        path = followed ∧
          ∃ rest, rest ≠ [] ∧ input = text ++ '/' :: rest ∧ captures = [(remainderName, rest)] := by
  have hreads (tail : List Leaf) (input : Text) (captures : List (Text × Text)) :
      Path.Reads (pathOf (lead ++ tail)).normal input captures ↔
        ∃ left, input = text ++ left ∧ Path.Reads (tail.map Leaf.kind) left captures := by
    rw [Path.reads_normal_iff, pathOf, Path.reads_concat_accept_iff, List.map_append,
      Path.reads_append_iff]
    simp only [hlead]
    constructor
    · rintro ⟨_, left, _, others, rfl, rfl, ⟨rfl, rfl⟩, htail⟩
      exact ⟨left, rfl, htail⟩
    · rintro ⟨left, rfl, htail⟩
      exact ⟨text, left, [], captures, rfl, rfl, ⟨rfl, rfl⟩, htail⟩
  have hbare (input : Text) (captures : List (Text × Text)) :
      Path.Reads (pathOf (lead ++ [])).normal input captures ↔ input = text ∧ captures = [] := by
    rw [hreads]
    simp [Path.reads_nil_iff]
  have hslashed (input : Text) (captures : List (Text × Text)) :
      Path.Reads (pathOf (lead ++ [⟨id + 2, .fixed ['/']⟩])).normal input captures ↔
        input = text ++ ['/'] ∧ captures = [] := by
    simp [hreads, Path.reads_fixed_iff, Path.reads_nil_iff]
  have hfollowed (input : Text) (captures : List (Text × Text)) :
      Path.Reads
        (pathOf (lead ++ [⟨id + 2, .fixed ['/']⟩, ⟨id + 4, .capture remainderName⟩])).normal
        input captures ↔
        ∃ rest, rest ≠ [] ∧ input = text ++ '/' :: rest ∧ captures = [(remainderName, rest)] := by
    simp only [hreads, List.map_cons, List.map_nil, Path.reads_fixed_iff, Path.reads_capture_iff,
      Path.reads_nil_iff]
    constructor
    · rintro ⟨_, rfl, _, rfl, rest, _, _, rfl, rfl, hvalue, rfl, rfl⟩
      exact ⟨rest, hvalue.1, by simp, rfl⟩
    · rintro ⟨rest, hrest, rfl, rfl⟩
      exact ⟨_, rfl, rest, rfl, rest, [], [], by simp, rfl, ⟨hrest, .inl rfl⟩, rfl, rfl⟩
  refine ⟨(pathOf (lead ++ [])).normal, (pathOf (lead ++ [⟨id + 2, .fixed ['/']⟩])).normal,
    (pathOf (lead ++ [⟨id + 2, .fixed ['/']⟩, ⟨id + 4, .capture remainderName⟩])).normal,
    fun path captures input => ?_⟩
  rw [mem_readings_iff, (mem_pathsOf_iff hparse hpaths).2, hways, Draft.waysOfSequence_continuation]
  simp only [List.map_cons, List.map_nil, List.mem_cons, List.not_mem_nil, or_false,
    exists_eq_or_imp, exists_eq_left]
  rw [← hbare, ← hslashed, ← hfollowed]
  constructor
  · rintro ⟨rfl | rfl | rfl, h⟩
    · exact .inr (.inr ⟨rfl, h⟩)
    · exact .inr (.inl ⟨rfl, h⟩)
    · exact .inl ⟨rfl, h⟩
  · rintro (⟨rfl, h⟩ | ⟨rfl, h⟩ | ⟨rfl, h⟩)
    · exact ⟨.inr (.inr rfl), h⟩
    · exact ⟨.inr (.inl rfl), h⟩
    · exact ⟨.inl rfl, h⟩

/-- A text that is mounted matches each path at most once: itself, and itself before a slash. -/
theorem matchesOfPattern_mountPattern (hslash : text.getLast? ≠ some '/')
    (hshort : (Route.mountPattern (escaped text)).byteLength ≤ maxPatternLength) :
    Automaton.matchesOfPattern (Route.mountPattern (escaped text)) text = [⟨.ofCaptures [], ()⟩] ∧
    Automaton.matchesOfPattern (Route.mountPattern (escaped text)) (text ++ ['/']) =
      [⟨.ofCaptures [], ()⟩] ∧
    (∀ rest, rest ≠ [] →
      Automaton.matchesOfPattern (Route.mountPattern (escaped text)) (text ++ '/' :: rest) =
        [⟨.ofCaptures [(remainderName, rest)], ()⟩]) ∧
    ∀ input, input ≠ text → (∀ rest, input ≠ text ++ '/' :: rest) →
      Automaton.matchesOfPattern (Route.mountPattern (escaped text)) input = [] := by
  obtain ⟨nodes, lead, id, hparse, hexpands, hways, hlead⟩ := exists_ways_mountPattern hslash hshort
  obtain ⟨paths, hpaths⟩ := exists_pathsOf_iff_expands.2 ⟨nodes, hparse, hexpands⟩
  obtain ⟨bare, slashed, followed, hmem⟩ :=
    exists_readings_mountPattern hparse hpaths hways hlead
  have hnodup := nodup_readings (mem_pathsOf_iff hparse hpaths).1
  -- No reading is listed twice, so it is enough to know that there is just one.
  have hsingle {input : Text} (path : Path Unit) {captures : List (Text × Text)}
      (h : ∀ other more, (other, more) ∈ readings paths input ↔ other = path ∧ more = captures) :
      Automaton.matchesOfPattern (Route.mountPattern (escaped text)) input =
        [⟨.ofCaptures captures, ()⟩] := by
    have hperm : (readings paths input).Perm [(path, captures)] := by
      refine (List.perm_ext_iff_of_nodup (hnodup input) (List.nodup_singleton _)).2 ?_
      rintro ⟨other, more⟩
      rw [h, List.mem_singleton, Prod.mk.injEq]
    rw [Automaton.matchesOfPattern_eq hpaths, Automaton.flatMap_matches_eq hpaths,
      List.perm_singleton.1 hperm]
    rfl
  refine ⟨hsingle bare fun path captures => ?_, hsingle slashed fun path captures => ?_,
    fun rest hrest => hsingle followed fun path captures => ?_, fun input htext hrest => ?_⟩
  · simp [hmem]
  · rw [hmem]
    constructor
    · rintro (⟨-, h, -⟩ | ⟨rfl, -, rfl⟩ | ⟨-, rest, hrest, h, -⟩)
      · simp at h
      · exact ⟨rfl, rfl⟩
      · simp [hrest.symm] at h
    · rintro ⟨rfl, rfl⟩
      exact .inr (.inl ⟨rfl, rfl, rfl⟩)
  · rw [hmem]
    constructor
    · rintro (⟨-, h, -⟩ | ⟨-, h, -⟩ | ⟨rfl, other, -, h, rfl⟩)
      · simp at h
      · simp [hrest] at h
      · obtain ⟨-, rfl⟩ := List.cons_eq_cons.1 (List.append_cancel_left h)
        exact ⟨rfl, rfl⟩
    · rintro ⟨rfl, rfl⟩
      exact .inr (.inr ⟨rfl, rest, hrest, rfl, rfl⟩)
  · have hnone : readings paths input = [] := by
      refine List.eq_nil_iff_forall_not_mem.2 ?_
      rintro ⟨path, captures⟩ hreading
      rcases (hmem ..).1 hreading with ⟨-, h, -⟩ | ⟨-, h, -⟩ | ⟨-, rest, -, h, -⟩
      · exact htext h
      · exact hrest [] h
      · exact hrest rest h
    rw [Automaton.matchesOfPattern_eq hpaths, Automaton.flatMap_matches_eq hpaths, hnone]
    rfl

end Mounted

namespace Router

/-- A router whose only route mounts another one for all methods asks it for every match. -/
theorem handlers_of_mount {pathPrefix : Text} {child outer : Router η}
    (hbuild : build [Route.mount [] pathPrefix child] = .ok outer) (method : Method) (path : Text) :
    outer.handlers method path =
      (Automaton.matchesOfPattern (Route.mountPattern pathPrefix) path).flatMap fun found =>
        child.handlersFrom method (Level.innerPath found.params)
          (found.params.erase remainderName) := by
  obtain ⟨hroutes, -⟩ := build_eq_ok_iff.1 hbuild
  have hpatterns : outer.patterns.zipIdx = [(Route.mountPattern pathPrefix, 0)] := by
    rw [patterns, hroutes]
    rfl
  rw [handlers, handlersFrom_eq, toList_matchesOf_of_build hbuild, hpatterns,
    List.flatMap_singleton, List.flatMap_map]
  refine List.flatMap_congr fun found _ => ?_
  have hroute : outer.routes[(found.retag 0).tag]? = some (Route.mount [] pathPrefix child) := by
    rw [hroutes]
    rfl
  rw [handlersOf, hroute]
  simp only [Params.empty_override]
  rfl

/-- Mounting under a fixed text is transparent: the text is taken away, with the path behind it or
without one, and the mounted router answers as if it was asked alone. Other paths have no answer. -/
theorem yields_mount_escaped {text : Text} (hslash : text.getLast? ≠ some '/')
    (hshort : (Route.mountPattern (escaped text)).byteLength ≤ maxPatternLength)
    (child : Router η) :
    ∃ outer, build [Route.mount [] (escaped text) child] = .ok outer ∧ ∀ method,
      (∀ rest, ∃ results, (outer.dispatch method (text ++ '/' :: rest)).Yields results ∧
        (child.dispatch method ('/' :: rest)).Yields results) ∧
      (∃ results, (outer.dispatch method text).Yields results ∧
        (child.dispatch method ['/']).Yields results) ∧
      ∀ path, path ≠ text → (∀ rest, path ≠ text ++ '/' :: rest) →
        (outer.dispatch method path).Yields [] := by
  obtain ⟨nodes, -, -, hparse, hexpands, -⟩ := exists_ways_mountPattern hslash hshort
  obtain ⟨outer, houter⟩ := exists_build_mount_eq_ok_iff.2 ⟨nodes, hparse, hexpands⟩
  obtain ⟨htext, hbare, hrest, hother⟩ := matchesOfPattern_mountPattern hslash hshort
  have hempty : remainderName ∉ ([] : List (Text × Text)).map Prod.fst := List.not_mem_nil
  obtain ⟨⟨hpath, hparams⟩, hfollowed⟩ := handover_of_not_mem hempty
  have hslashed (method : Method) (path : Text)
      (hmatches : Automaton.matchesOfPattern (Route.mountPattern (escaped text)) path =
        [⟨.ofCaptures [], ()⟩]) : outer.handlers method path = child.handlers method ['/'] := by
    rw [handlers_of_mount houter, hmatches, List.flatMap_singleton, hpath, hparams]
    rfl
  have hsame (method : Method) (rest : Text) :
      outer.handlers method (text ++ '/' :: rest) = child.handlers method ('/' :: rest) := by
    by_cases hnil : rest = []
    · subst hnil
      exact hslashed method _ hbare
    · obtain ⟨hpath, hparams⟩ := hfollowed rest
      rw [handlers_of_mount houter, hrest rest hnil, List.flatMap_singleton]
      rw [List.nil_append] at hpath hparams
      rw [hpath, hparams]
      rfl
  refine ⟨outer, houter, fun method => ⟨fun rest => ?_, ?_, fun path hne hnot => ?_⟩⟩
  · exact ⟨_, yields_dispatch outer method _, hsame method rest ▸ yields_dispatch child method _⟩
  · exact ⟨_, yields_dispatch outer method text,
      hslashed method text htext ▸ yields_dispatch child method _⟩
  · have hnone := yields_dispatch outer method path
    rwa [handlers_of_mount houter, hother path hne hnot] at hnone

/-- The text `/a:b` is mounted as `/a\:b`, and the rest of the path is all that the routes of
`innerRoutes` see. -/
theorem yields_mount_colon : ∃ child outer : Router Nat, build innerRoutes = .ok child ∧
    build [Route.mount [] ['/', 'a', '\\', ':', 'b'] child] = .ok outer ∧
    (outer.dispatch .get ['/', 'a', ':', 'b', '/', 'v']).Yields
      [⟨1, .ofCaptures [(['x'], ['v'])], 0, ['/', ':', 'x']⟩] ∧
    (outer.dispatch .get ['/', 'a', ':', 'b', 'v']).Yields [] := by
  obtain ⟨child, hchild, hhandlers⟩ := exists_build_innerRoutes
  obtain ⟨outer, houter, hsame⟩ := @yields_mount_escaped Nat ['/', 'a', ':', 'b'] (by decide)
    (by decide) child
  obtain ⟨hbehind, -, hother⟩ := hsame .get
  obtain ⟨results, houterYields, hchildYields⟩ := hbehind ['v']
  have hresults : results = [⟨1, .ofCaptures [(['x'], ['v'])], 0, ['/', ':', 'x']⟩] := by
    rw [hchildYields.unique (yields_dispatch ..), handlers, hhandlers .get 'v' .empty (by decide),
      Params.empty_override]
  exact ⟨child, outer, hchild, houter, hresults ▸ houterYields, hother _ (by decide) (by simp)⟩

end Router

end RoutePattern
