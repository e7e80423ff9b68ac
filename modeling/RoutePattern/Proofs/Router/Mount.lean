import RoutePattern.Proofs.Node.Expansion
import RoutePattern.Proofs.Node.Pieces
import RoutePattern.Proofs.Router.Dispatch

/-!
# Prefixes that can be mounted

A mount pattern is made of the text of its prefix: the slashes at the end go and a group comes in
their place. Neither the slashes nor the group go on with anything that the prefix leaves open, but
for a `\` that escapes nothing. So both are read behind the same draft, where slashes change
nothing about the ways through the tree (`exists_expands_slashes_iff`) and the group makes three of
each (`exists_expands_mounted_iff`). A prefix of this kind can be mounted if it is a pattern
itself and does not have too many paths for that, and only then (`exists_build_mount_iff`).
-/

namespace RoutePattern

open Node

variable {η : Type}

theorem exists_eq_dropTrailing_append (c : Char) (text : Text) :
    ∃ count, text = text.dropTrailing c ++ List.replicate count c := by
  refine ⟨(text.reverse.takeWhile (· == c)).length, ?_⟩
  have htaken : (text.reverse.takeWhile (· == c)).reverse =
      List.replicate (text.reverse.takeWhile (· == c)).length c := by
    rw [List.eq_replicate_iff, List.length_reverse]
    refine ⟨rfl, fun d hd => ?_⟩
    exact beq_iff_eq.1 (List.all_eq_true.1 List.all_takeWhile d (List.mem_reverse.1 hd))
  calc text = (text.reverse.takeWhile (· == c) ++ text.reverse.dropWhile (· == c)).reverse := by
        rw [List.takeWhile_append_dropWhile, List.reverse_reverse]
    _ = text.dropTrailing c ++ List.replicate (text.reverse.takeWhile (· == c)).length c := by
        rw [List.reverse_append, htaken, Text.dropTrailing]

namespace Draft

/-! ## Slashes at the end -/

theorem readText_slashes (draft : Draft) (offset count : Nat) :
    ∃ last, draft.readText offset (List.replicate count '/') = .ok last ∧
      last.groups = draft.groups ∧
      ∀ bound, Expands last.nodes.reverse bound ↔ Expands draft.nodes.reverse bound := by
  induction count generalizing draft offset with
  | zero => exact ⟨draft, rfl, rfl, fun _ => Iff.rfl⟩
  | succ count ih =>
    obtain ⟨last, hlast, hgroups, hexpands⟩ := ih (draft.addChar '/') (offset + '/'.utf8Size)
    refine ⟨last, ?_, hgroups.trans (groups_addChar draft '/'), fun bound => ?_⟩
    · rw [List.replicate_succ, readText_char rfl, hlast]
    · rw [hexpands, expands_addChar_iff]

/-! ## The group at the end -/

/-- The group behind a mounted prefix, its ids beginning behind `lastId`: nothing, a slash, or a
slash and the rest of the path. -/
def continuation (lastId : Nat) : Node :=
  .group (lastId + 1) [[.literal (lastId + 2) ['/'],
    .group (lastId + 3) [[.parameter (lastId + 4) remainderName false]] true]] true

theorem readText_continuation (lastId : Nat) (nodes : List Node) (groups : List OpenGroup)
    (offset : Nat) :
    (Draft.mk lastId nodes groups).readText offset ['(', '/', '(', ':', '_', ')', '?', ')', '?'] =
      .ok ⟨lastId + 4, continuation lastId :: nodes, groups⟩ := rfl

theorem waysOfSequence_continuation (lastId : Nat) : waysOfSequence [continuation lastId] =
    [[⟨lastId + 2, .fixed ['/']⟩, ⟨lastId + 4, .capture remainderName⟩],
      [⟨lastId + 2, .fixed ['/']⟩], []] := rfl

theorem length_eraseDups_continuation (lastId : Nat) :
    (waysOfSequence [continuation lastId]).eraseDups.length = 3 := by
  rw [waysOfSequence_continuation, eraseDups_eq_self (by simp)]
  rfl

/-- The group makes three ways of each, and no captures touch because of it. -/
theorem expands_concat_continuation_iff {nodes : List Node} {lastId bound : Nat}
    (hids : ∀ id ∈ idsOf nodes, id ≤ lastId) :
    Expands (nodes ++ [continuation lastId]) bound ↔ Expands nodes (bound / 3) := by
  have hnew : ∀ leaf ∈ leavesOf nodes, leaf ∉ leavesOf [continuation lastId] := by
    intro leaf hleaf hother
    obtain ⟨node, hnode, hid⟩ := List.mem_filterMap.1 hleaf
    have hle := hids node.id (List.mem_map_of_mem hnode)
    rw [← id_eq_of_leaf? hid] at hle
    have hcases :
        ⟨lastId + 2, .fixed ['/']⟩ = leaf ∨ ⟨lastId + 4, .capture remainderName⟩ = leaf := by
      simpa [leavesOf, continuation, membersOfSequence, members, membersOfAll, leaf?] using hother
    rcases hcases with rfl | rfl
    · exact absurd hle (by simp)
    · exact absurd hle (by simp)
  have hslash (lead : List Leaf) (rest : Path Unit) :
      Path.adjacentAfter none (lead.map Leaf.kind ++ .fixed ['/'] :: rest) =
        (Path.adjacentAfter none (lead.map Leaf.kind)).or (Path.adjacentAfter none rest) :=
    Path.adjacentAfter_append_fixed '/' [] rest none _
  rw [expands_iff, expands_iff, length_waysOfSequence_append hnew, length_eraseDups_continuation,
    Nat.le_div_iff_mul_le (by decide), forall_waysOfSequence_append]
  refine and_congr_right fun _ => forall₂_congr fun lead _ => ?_
  simp [waysOfSequence_continuation, hslash, Path.adjacentAfter]

theorem le_lastId_of_readText {text : Text} {draft : Draft}
    (h : Draft.empty.readText 0 text = .ok draft) : ∀ id ∈ idsOf draft.nodes.reverse,
      id ≤ draft.lastId := by
  intro id hid
  have hvalid := isValid_readAll isValid_empty h
  exact (hvalid.numbered.bounds id
    (List.mem_append_left _ ((idsOf_reverse _).mem_iff.1 hid))).2

end Draft

/-! ## Read behind a prefix -/

section Prefix

variable {text : Text} {bound : Nat}

/-- Behind a text something is read that leaves no group open and makes more ways of each. -/
theorem exists_expands_append_iff {rest : Text} {fewer : Nat} (hescape : ¬ EndsInEscape text)
    (hrest : ∀ c ∈ rest.head?, isNamePart c = false ∧ c ≠ '?')
    (hread : ∀ draft, Draft.empty.readText 0 text = .ok draft →
      ∃ last, draft.readText text.byteLength rest = .ok last ∧ last.groups = draft.groups ∧
        (Expands last.nodes.reverse bound ↔ Expands draft.nodes.reverse fewer)) :
    (∃ nodes, parse (text ++ rest) = .ok nodes ∧ Expands nodes bound) ↔
      (text ++ rest).byteLength ≤ maxPatternLength ∧
      ∃ draft, Draft.empty.readText 0 text = .ok draft ∧ draft.groups = [] ∧
        Expands draft.nodes.reverse fewer := by
  simp only [parse_eq_ok_iff, Draft.readText_append hescape hrest, bind_eq_ok_iff]
  constructor
  · rintro ⟨_, ⟨hshort, last, ⟨draft, hdraft, hlast⟩, hgroups, rfl⟩, hexpands⟩
    obtain ⟨_, hown, hsame, hiff⟩ := hread draft hdraft
    obtain rfl := Except.ok.inj (hlast.symm.trans hown)
    rw [Draft.expands_filled_iff] at hexpands
    exact ⟨hshort, draft, hdraft, hsame.symm.trans hgroups, hiff.1 hexpands⟩
  · rintro ⟨hshort, draft, hdraft, hgroups, hexpands⟩
    obtain ⟨last, hlast, hsame, hiff⟩ := hread draft hdraft
    refine ⟨_, ⟨hshort, last, ⟨draft, hdraft, hlast⟩, hsame.trans hgroups, rfl⟩, ?_⟩
    rw [Draft.expands_filled_iff]
    exact hiff.2 hexpands

theorem exists_expands_slashes_iff (hescape : ¬ EndsInEscape text) (count : Nat) :
    (∃ nodes, parse (text ++ List.replicate count '/') = .ok nodes ∧ Expands nodes bound) ↔
      (text ++ List.replicate count '/').byteLength ≤ maxPatternLength ∧
      ∃ draft, Draft.empty.readText 0 text = .ok draft ∧ draft.groups = [] ∧
        Expands draft.nodes.reverse bound := by
  refine exists_expands_append_iff hescape (fun c hc => ?_) fun draft _ => ?_
  · obtain rfl := List.eq_of_mem_replicate (List.mem_of_mem_head? hc)
    decide
  · obtain ⟨last, hlast, hgroups, hexpands⟩ := draft.readText_slashes text.byteLength count
    exact ⟨last, hlast, hgroups, hexpands bound⟩

/-- The group behind a prefix multiplies its ways by three. -/
theorem exists_expands_mounted_iff (hescape : ¬ EndsInEscape text) :
    (∃ nodes, parse (text ++ ['(', '/', '(', ':', '_', ')', '?', ')', '?']) = .ok nodes ∧
        Expands nodes bound) ↔
      (text ++ ['(', '/', '(', ':', '_', ')', '?', ')', '?']).byteLength ≤ maxPatternLength ∧
      ∃ draft, Draft.empty.readText 0 text = .ok draft ∧ draft.groups = [] ∧
        Expands draft.nodes.reverse (bound / 3) := by
  refine exists_expands_append_iff hescape (fun c hc => ?_) fun draft hdraft => ?_
  · obtain rfl := Option.some.inj hc
    decide
  · refine ⟨_, Draft.readText_continuation _ _ _ _, rfl, ?_⟩
    rw [List.reverse_cons]
    exact Draft.expands_concat_continuation_iff (Draft.le_lastId_of_readText hdraft)

end Prefix

/-! ## Mounting -/

/-- If the pattern is accepted, at most `bound` paths are listed for it. -/
def ListsAtMost (pattern : Text) (bound : Nat) : Prop :=
  ∀ automaton nodes graph found, Automaton.ofPattern pattern = .ok automaton →
    parse pattern = .ok nodes → compile nodes = .ok graph → walks graph = .ok found →
      found.length ≤ bound

/-- A pattern that is accepted expands to as many ways as paths are listed for it. -/
theorem exists_expands_iff_of_listsAtMost {pattern : Text} {bound : Nat}
    (hlists : ListsAtMost pattern bound) (hle : bound ≤ maxPaths) :
    (∃ automaton, Automaton.ofPattern pattern = .ok automaton) ↔
      ∃ nodes, parse pattern = .ok nodes ∧ Expands nodes bound := by
  rw [Automaton.exists_ofPattern_eq_ok_iff, exists_pathsOf_iff_expands]
  constructor
  · rintro ⟨nodes, hparse, hexpands⟩
    obtain ⟨automaton, hautomaton⟩ := Automaton.exists_ofPattern_eq_ok_iff.2
      (exists_pathsOf_iff_expands.2 ⟨nodes, hparse, hexpands⟩)
    obtain ⟨graph, found, hcompile, -, -, hwalks⟩ := exists_walks_of_parse hparse
    rw [if_pos hexpands.few] at hwalks
    have hfew := hlists automaton nodes graph found hautomaton hparse hcompile hwalks
    rw [length_walks_of_parse hparse hcompile hwalks] at hfew
    exact ⟨nodes, hparse, hfew, hexpands.parted⟩
  · rintro ⟨nodes, hparse, hexpands⟩
    exact ⟨nodes, hparse, Nat.le_trans hexpands.few hle, hexpands.parted⟩

namespace Router

theorem exists_build_mount_eq_ok_iff {methods : List Method} {pathPrefix : Text}
    {router : Router η} : (∃ outer, build [Route.mount methods pathPrefix router] = .ok outer) ↔
      ∃ nodes, parse (Route.mountPattern pathPrefix) = .ok nodes ∧ Expands nodes maxPaths := by
  rw [exists_build_eq_ok_iff, List.forall_mem_singleton, exists_pathsOf_iff_expands]
  rfl

/-- A text with slashes behind it, and a group in place of them. -/
theorem exists_expands_slashes_iff_mounted {text : Text} {count : Nat}
    (hescape : ¬ EndsInEscape text)
    (hshort : (text ++ List.replicate count '/').byteLength ≤ maxPatternLength)
    (hmount : (text ++ ['(', '/', '(', ':', '_', ')', '?', ')', '?']).byteLength ≤
      maxPatternLength) :
    (∃ nodes, parse (text ++ ['(', '/', '(', ':', '_', ')', '?', ')', '?']) = .ok nodes ∧
        Expands nodes maxPaths) ↔
      ∃ nodes, parse (text ++ List.replicate count '/') = .ok nodes ∧
        Expands nodes (maxPaths / 3) := by
  rw [exists_expands_mounted_iff hescape, exists_expands_slashes_iff hescape, and_iff_right hmount,
    and_iff_right hshort]

/-- A prefix without an open `\` at its end can be mounted if it is accepted as a pattern, and only
then, where it has few enough paths for the three continuations of each. The slashes at its end do
not count for its length: what is mounted is the prefix without them. -/
theorem exists_build_mount_iff {methods : List Method} {pathPrefix : Text} {router : Router η}
    (hmount : (Route.mountPattern pathPrefix).byteLength ≤ maxPatternLength)
    (hescape : ¬ EndsInEscape (pathPrefix.dropTrailing '/')) :
    (pathPrefix.byteLength ≤ maxPatternLength → ListsAtMost pathPrefix 341 →
      ((∃ outer, build [Route.mount methods pathPrefix router] = .ok outer) ↔
        ∃ automaton, Automaton.ofPattern pathPrefix = .ok automaton)) ∧
    (ListsAtMost (pathPrefix.dropTrailing '/') 341 →
      ((∃ outer, build [Route.mount methods pathPrefix router] = .ok outer) ↔
        ∃ automaton, Automaton.ofPattern (pathPrefix.dropTrailing '/') = .ok automaton)) := by
  refine ⟨fun hshort hlists => ?_, fun hlists => ?_⟩
  · obtain ⟨count, hcount⟩ := exists_eq_dropTrailing_append '/' pathPrefix
    rw [exists_build_mount_eq_ok_iff, exists_expands_iff_of_listsAtMost hlists (by decide)]
    rw [hcount] at hshort
    have hsame := exists_expands_slashes_iff_mounted hescape hshort hmount
    rw [← hcount] at hsame
    exact hsame
  · have hshort : (pathPrefix.dropTrailing '/' ++ List.replicate 0 '/').byteLength ≤
        maxPatternLength := by
      rw [Route.mountPattern, Text.byteLength_append] at hmount
      rw [List.replicate_zero, List.append_nil]
      omega
    rw [exists_build_mount_eq_ok_iff, exists_expands_iff_of_listsAtMost hlists (by decide)]
    have hsame := exists_expands_slashes_iff_mounted hescape hshort hmount
    rw [List.replicate_zero, List.append_nil] at hsame
    exact hsame

/-- The prefix `/a/:v//` is a pattern, and what is mounted is `/a/:v`. -/
theorem exists_build_mount_slashed : ∃ router outer : Router Nat, build [] = .ok router ∧
    build [Route.mount [] ['/', 'a', '/', ':', 'v', '/', '/'] router] = .ok outer ∧
    outer.patterns =
      [['/', 'a', '/', ':', 'v', '(', '/', '(', ':', '_', ')', '?', ')', '?']] := by
  have hparse : parse ['/', 'a', '/', ':', 'v', '/', '/'] = .ok [.literal 1 ['/', 'a', '/'],
      .parameter 2 ['v'] false, .literal 3 ['/', '/']] := rfl
  have hlists : ListsAtMost ['/', 'a', '/', ':', 'v', '/', '/'] 341 := by
    intro automaton nodes graph found _ hown hcompile hfound
    obtain rfl := Except.ok.inj (hparse.symm.trans hown)
    rw [length_walks_of_parse hparse hcompile hfound]
    decide
  have hpaths : pathsOf ['/', 'a', '/', ':', 'v', '/', '/'] = .ok [[.fixed ['/', 'a', '/'],
      .capture ['v'], .fixed ['/', '/'], .accept ()]] := by decide +kernel
  obtain ⟨router, hrouter⟩ : ∃ router : Router Nat, build [] = .ok router :=
    exists_build_eq_ok_iff.2 (by simp)
  obtain ⟨hown, -⟩ := @exists_build_mount_iff Nat [] ['/', 'a', '/', ':', 'v', '/', '/'] router
    (by decide) (by decide)
  obtain ⟨outer, houter⟩ := (hown (by decide) hlists).2
    (Automaton.exists_ofPattern_eq_ok_iff.2 ⟨_, hpaths⟩)
  refine ⟨router, outer, hrouter, houter, ?_⟩
  obtain ⟨hroutes, -⟩ := build_eq_ok_iff.1 houter
  rw [patterns, hroutes]
  rfl

theorem not_exists_ofPattern_of_parse {pattern : Text} {e : PatternError}
    (h : parse pattern = .error e) :
    ¬ ∃ automaton, Automaton.ofPattern pattern = .ok automaton := by
  rw [Automaton.exists_ofPattern_eq_ok_iff, exists_pathsOf_iff_expands, h]
  rintro ⟨nodes, hnodes, -⟩
  cases hnodes

/-- A prefix that is no pattern, although what is mounted is one. -/
theorem not_build_mount_iff_of_parse {pathPrefix : Text} {e : PatternError}
    {paths : List (Path Unit)} (hparse : parse pathPrefix = .error e)
    (hpaths : pathsOf (Route.mountPattern pathPrefix) = .ok paths) (router : Router η)
    (bound : Nat) : ListsAtMost pathPrefix bound ∧
      ¬ ((∃ outer, build [Route.mount [] pathPrefix router] = .ok outer) ↔
        ∃ automaton, Automaton.ofPattern pathPrefix = .ok automaton) := by
  have hrejected := not_exists_ofPattern_of_parse hparse
  refine ⟨fun automaton _ _ _ hautomaton => absurd ⟨automaton, hautomaton⟩ hrejected, ?_⟩
  intro hiff
  exact hrejected (hiff.1 (exists_build_eq_ok_iff.2 (List.forall_mem_singleton.2 ⟨_, hpaths⟩)))

/-- Of `a\/` the slash goes and the `\` stays, and escapes the first character of the group, so a
pattern cannot be mounted. In `(a\` it does so too, and the group closes what is open, so what is no
pattern can be. Slashes can be too many for a pattern, but nothing of them is mounted. -/
theorem build_mount_differs : ∃ router : Router Nat, build [] = .ok router ∧
    ∀ pathPrefix ∈ [['a', '\\', '/'], ['(', 'a', '\\'], List.replicate 4097 '/'],
      (Route.mountPattern pathPrefix).byteLength ≤ maxPatternLength ∧ ListsAtMost pathPrefix 341 ∧
      ¬ ((∃ outer, build [Route.mount [] pathPrefix router] = .ok outer) ↔
        ∃ automaton, Automaton.ofPattern pathPrefix = .ok automaton) := by
  obtain ⟨router, hrouter⟩ : ∃ router : Router Nat, build [] = .ok router :=
    exists_build_eq_ok_iff.2 (by simp)
  have hslashes (count : Nat) : Route.mountPattern (List.replicate count '/') =
      ['(', '/', '(', ':', '_', ')', '?', ')', '?'] := by
    simp [Route.mountPattern, Text.dropTrailing]
  have hlong (count : Nat) : Text.byteLength (List.replicate count '/') = count := by
    induction count with
    | zero => rfl
    | succ count ih => rw [List.replicate_succ, Text.byteLength_cons, ih, Nat.add_comm]; rfl
  refine ⟨router, hrouter, ?_⟩
  rw [List.forall_mem_cons, List.forall_mem_cons, List.forall_mem_singleton]
  refine ⟨⟨by decide, ?_, ?_⟩, ⟨by decide, ?_⟩, ?_, ?_⟩
  · have hparse : parse ['a', '\\', '/'] = .ok [.literal 1 ['a', '/']] := rfl
    intro automaton nodes graph found _ hown hcompile hfound
    obtain rfl := Except.ok.inj (hparse.symm.trans hown)
    rw [length_walks_of_parse hparse hcompile hfound]
    decide
  · have hpaths : pathsOf ['a', '\\', '/'] = .ok [[.fixed ['a', '/'], .accept ()]] := by
      decide +kernel
    have hparse : parse (Route.mountPattern ['a', '\\', '/']) =
        .error (.misspelled (Route.mountPattern ['a', '\\', '/']) 9 .unmatchedParenthesis) := rfl
    intro hiff
    obtain ⟨nodes, hnodes, -⟩ := exists_build_mount_eq_ok_iff.1
      (hiff.2 (Automaton.exists_ofPattern_eq_ok_iff.2 ⟨_, hpaths⟩))
    rw [hparse] at hnodes
    cases hnodes
  · have hparse : parse ['(', 'a', '\\'] =
        .error (.misspelled ['(', 'a', '\\'] 2 .danglingEscape) := rfl
    have hpaths : pathsOf (Route.mountPattern ['(', 'a', '\\']) = .ok
        [[.fixed ['a', '(', '/'], .capture remainderName, .accept ()],
          [.fixed ['a', '(', '/'], .accept ()], [.accept ()]] := by decide +kernel
    exact not_build_mount_iff_of_parse hparse hpaths router 341
  · rw [hslashes]
    decide
  · have hparse := parse_eq_error_iff.2 (.inl ⟨show maxPatternLength <
      Text.byteLength (List.replicate 4097 '/') by rw [hlong]; decide, rfl⟩)
    have hpaths : pathsOf (Route.mountPattern (List.replicate 4097 '/')) = .ok
        [[.fixed ['/'], .capture remainderName, .accept ()], [.fixed ['/'], .accept ()],
          [.accept ()]] := by
      rw [hslashes]
      decide +kernel
    exact not_build_mount_iff_of_parse hparse hpaths router 341

end Router

end RoutePattern
