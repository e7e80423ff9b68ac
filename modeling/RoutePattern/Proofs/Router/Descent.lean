import RoutePattern.Proofs.Router.MountPattern
import RoutePattern.Proofs.Router.Turns

/-!
# What a mount hands over

A run enters the routers that are mounted in the router of the request by the matches of that router
and in their order: `Dispatch.entrances` lists the levels that are entered, and every turn takes its
own one off this list (`Turn.entrances_eq`). A mount hands over what its prefix has captured, of the
whole path or of a part of it before a slash, and a path that begins with that slash
(`descents_of_mount`).
-/

namespace RoutePattern

variable {η : Type}

namespace Dispatch

/-! ## Entrances of a run -/

/-- Where a match of a level leads: the route, and the level of the router that it mounts. -/
def entrance? (method : Method) (level : Level η) (found : Match Nat) : Option (Nat × Level η) :=
  match level.router.routes[found.tag]? with
  | none => none
  | some route =>
    if route.allows method then
      match route.target with
      | .handler _ => none
      | .mount child =>
        some (found.tag, Level.descend child (level.inherited.override found.params))
    else none

/-- Where the matches that the outermost level of a stack still has lead. -/
def entrances (method : Method) : List (Level η) → List (Nat × Level η)
  | [] => []
  | [level] => level.found.toList.filterMap (entrance? method level)
  | _ :: level :: outer => entrances method (level :: outer)

/-- Where the outermost level leads at an event. -/
def Event.entrance? : Event η → Option (Nat × Level η)
  | descend 0 route entered => some (route, entered)
  | _ => none

variable {method : Method} {level entered : Level η} {outer stack next : List (Level η)}
  {event : Event η} {events : List (Event η)}

theorem Event.mem_filterMap_entrance?_iff {route : Nat} :
    (route, entered) ∈ events.filterMap Event.entrance? ↔ .descend 0 route entered ∈ events := by
  rw [List.mem_filterMap]
  constructor
  · rintro ⟨event, hevent, hentrance⟩
    cases event with
    | descend depth =>
      cases depth with
      | zero => cases hentrance; exact hevent
      | succ => cases hentrance
    | leave => cases hentrance
    | pass => cases hentrance
    | find => cases hentrance
  · intro hevent
    exact ⟨_, hevent, rfl⟩

theorem tag_eq_of_entrance? {found : Match Nat} {index : Nat}
    (h : entrance? method level found = some (index, entered)) : found.tag = index := by
  rw [entrance?] at h
  split at h
  · cases h
  · split at h
    · split at h
      · cases h
      · cases h
        rfl
    · cases h

theorem entrances_of_next_some {found : Match Nat} {left : Matches Nat}
    (hnext : level.found.next = (some found, left)) : entrances method [level] =
      (entrance? method level found).toList ++ entrances method [{ level with found := left }] := by
  rw [entrances, Matches.toList_of_next_some hnext, List.filterMap_cons]
  cases entrance? method level found <;> rfl

/-- A turn enters the first of the routers that the outermost level still leads to, or none. -/
theorem Turn.entrances_eq (h : Turn method stack event next) :
    entrances method stack = event.entrance?.toList ++ entrances method next := by
  cases h with
  | @leave level outer left hnext =>
    cases next with
    | nil =>
      show level.found.toList.filterMap _ = []
      rw [Matches.toList_of_next_none hnext, List.filterMap_nil]
    | cons => rfl
  | @pass level outer found left hnext hpass =>
    cases outer with
    | nil =>
      have hnone : entrance? method level found = none := by
        rw [entrance?]
        cases hroute : level.router.routes[found.tag]? with
        | none => rfl
        | some route => simp [hpass route hroute]
      rw [entrances_of_next_some hnext, hnone]
      rfl
    | cons => rfl
  | @find level outer found left route handler hnext hroute hallows htarget =>
    cases outer with
    | nil =>
      have hnone : entrance? method level found = none := by
        simp [entrance?, hroute, htarget]
      rw [entrances_of_next_some hnext, hnone]
      rfl
    | cons => rfl
  | @descend level outer found left route child params hnext hroute hallows htarget hparams =>
    cases outer with
    | nil =>
      have hsome : entrance? method level found =
          some (found.tag, Level.descend child params) := by
        simp [entrance?, hroute, hallows, htarget, hparams]
      rw [entrances_of_next_some hnext, hsome]
      rfl
    | cons => rfl

theorem Run.entrances_eq (h : Run method stack events []) :
    events.filterMap Event.entrance? = entrances method stack := by
  generalize hlast : ([] : List (Level η)) = last at h
  induction h with
  | nil => subst hlast; rfl
  | @cons stack next last event events hturn _ ih =>
    rw [hturn.entrances_eq, ← ih hlast, List.filterMap_cons]
    cases event.entrance? <;> rfl

end Dispatch

/-- The matches of a pattern have the parameters that its tree records. -/
theorem Automaton.exists_mem_matchesOfPattern_iff {pattern : Text} {paths : List (Path Unit)}
    {nodes : List Node} (hpaths : pathsOf pattern = .ok paths) (hnodes : parse pattern = .ok nodes)
    (input : Text) (p : Params → Prop) :
    (∃ found ∈ matchesOfPattern pattern input, p found.params) ↔
      ∃ captures, Node.ReadsSequence nodes input captures ∧ p (.ofCaptures captures) := by
  have hparams := exists_mem_matches_iff hpaths hnodes input
  simp only [Params.records_iff] at hparams
  rw [matchesOfPattern_eq hpaths]
  constructor
  · rintro ⟨found, hfound, hp⟩
    obtain ⟨captures, hreads, heq⟩ := (hparams found.params).1 ⟨found, hfound, rfl⟩
    exact ⟨captures, hreads, heq ▸ hp⟩
  · rintro ⟨captures, hreads, hp⟩
    obtain ⟨found, hfound, heq⟩ := (hparams _).2 ⟨captures, hreads, rfl⟩
    exact ⟨found, hfound, heq ▸ hp⟩

namespace Router

open Dispatch

/-! ## The entrances of one mount -/

section Mount

variable {routes : List (Route η)} {router child : Router η} {route : Route η} {index : Nat}
  {methods : List Method} {pathPrefix : Text} {method : Method}

/-- The matches of a route among those of its router are those of its pattern. -/
theorem exists_mem_matchesOf_iff (hbuild : build routes = .ok router)
    (hroute : routes[index]? = some route) (path : Text) (p : Params → Prop) :
    (∃ found ∈ (router.automaton.matchesOf path).toList, found.tag = index ∧ p found.params) ↔
      ∃ found ∈ Automaton.matchesOfPattern route.pattern path, p found.params := by
  have hpattern : router.patterns[index]? = some route.pattern := by
    rw [patterns, (build_eq_ok_iff.1 hbuild).1, List.getElem?_map, hroute, Option.map_some]
  rw [toList_matchesOf_of_build hbuild]
  simp only [List.mem_flatMap, List.mem_map]
  constructor
  · rintro ⟨_, ⟨⟨pattern, place⟩, hentry, own, hown, rfl⟩, rfl, hparams⟩
    have hsame := List.mem_zipIdx_iff_getElem?.1 hentry
    obtain rfl := Option.some.inj (hsame.symm.trans hpattern)
    exact ⟨own, hown, hparams⟩
  · rintro ⟨own, hown, hparams⟩
    exact ⟨own.retag index, ⟨(route.pattern, index), List.mem_zipIdx_iff_getElem?.2 hpattern,
      own, hown, rfl⟩, rfl, hparams⟩

/-- A mount is entered by the matches of its pattern. -/
theorem mem_descend_iff (hbuild : build routes = .ok router)
    (hroute : routes[index]? = some (.mount methods pathPrefix child))
    (hallows : (Route.mount methods pathPrefix child).allows method = true)
    {path : Text} {events : List (Event η)} (hruns : (router.dispatch method path).Runs events)
    {entered : Level η} :
    .descend 0 index entered ∈ events ↔
      ∃ found ∈ Automaton.matchesOfPattern (Route.mountPattern pathPrefix) path,
        entered = Level.descend child found.params := by
  have hpattern : (Route.mount methods pathPrefix child).pattern =
      Route.mountPattern pathPrefix := rfl
  rw [← hpattern, ← exists_mem_matchesOf_iff hbuild hroute path fun params =>
    entered = Level.descend child params]
  obtain ⟨rfl, -⟩ := build_eq_ok_iff.1 hbuild
  rw [← Event.mem_filterMap_entrance?_iff, hruns.entrances_eq]
  show (index, entered) ∈ entrances method [.enter router path .empty] ↔ _
  rw [entrances, List.mem_filterMap]
  refine exists_congr fun found => and_congr_right fun _ => ?_
  -- A match with another tag enters by another route, or not at all.
  by_cases htag : found.tag = index
  · subst htag
    have hown : entrance? method (.enter router path .empty) found =
        some (found.tag, Level.descend child found.params) := by
      simp only [entrance?, Level.enter, hroute, hallows, ↓reduceIte, Params.empty_override]
      rfl
    rw [hown, Option.some.injEq, Prod.mk.injEq, eq_comm (a := entered)]
  · exact iff_of_false (fun h => htag (tag_eq_of_entrance? h)) fun h => htag h.1

/-- The level of a mounted router begins with a path and with parameters, and with no others. -/
theorem enter_eq_descend_iff {path : Text} {params captured : Params} :
    (⟨child, child.automaton.matchesOf path, params⟩ : Level η) = Level.descend child captured ↔
      path = Level.innerPath captured ∧ params = captured.erase remainderName := by
  constructor
  · intro h
    obtain ⟨-, hfound, hparams⟩ := Level.mk.inj h
    exact ⟨congrArg Matches.input hfound, hparams⟩
  · rintro ⟨rfl, rfl⟩
    rfl

/-- Captures of a prefix without a parameter `_` are handed over as they are, with nothing of the
path behind them, or with all of it. -/
theorem handover_of_not_mem {captures : List (Text × Text)}
    (h : remainderName ∉ captures.map Prod.fst) :
    (Level.innerPath (.ofCaptures captures) = ['/'] ∧
      (Params.ofCaptures captures).erase remainderName = .ofCaptures captures) ∧
    ∀ rest, Level.innerPath (.ofCaptures (captures ++ [(remainderName, rest)])) = '/' :: rest ∧
      (Params.ofCaptures (captures ++ [(remainderName, rest)])).erase remainderName =
        .ofCaptures captures := by
  refine ⟨⟨?_, Params.erase_ofCaptures h⟩, fun rest => ⟨?_, Params.erase_ofCaptures_concat h rest⟩⟩
  · rw [Level.innerPath, Params.get?_ofCaptures, lastValue?_eq_none_iff.2 h, Option.getD_none]
  · rw [Level.innerPath, Params.get?_ofCaptures, lastValue?_concat, if_pos rfl, Option.getD_some]

/-- What the pattern of a mount hands over, in terms of its prefix. -/
theorem exists_handover_iff {nodes mounted : List Node}
    (hnodes : parse (pathPrefix.dropTrailing '/') = .ok nodes)
    (hmounted : parse (Route.mountPattern pathPrefix) = .ok mounted)
    (hname : ∀ id optional,
      Node.parameter id remainderName optional ∉ Node.membersOfSequence nodes)
    {path inner : Text} {params : Params} :
    (∃ captures, Node.ReadsSequence mounted path captures ∧
      inner = Level.innerPath (.ofCaptures captures) ∧
      params = (Params.ofCaptures captures).erase remainderName) ↔
    (inner = ['/'] ∧ ∃ captures, Node.ReadsSequence nodes path captures ∧
      params = .ofCaptures captures) ∨
    ∃ lead rest, path = lead ++ '/' :: rest ∧ inner = '/' :: rest ∧
      ∃ captures, Node.ReadsSequence nodes lead captures ∧ params = .ofCaptures captures := by
  have hnew {lead : Text} {captures : List (Text × Text)}
      (hreads : Node.ReadsSequence nodes lead captures) :
      remainderName ∉ captures.map Prod.fst := by
    intro h
    obtain ⟨⟨_, value⟩, hcapture, rfl⟩ := List.mem_map.1 h
    obtain ⟨id, optional, hmem⟩ := hreads.exists_parameter hcapture
    exact hname id optional hmem
  simp only [readsSequence_mountPattern_iff hnodes hmounted]
  constructor
  · rintro ⟨captures, hlead | ⟨lead, rfl, hlead⟩ | ⟨lead, rest, made, hrest, rfl, rfl, hlead⟩,
      rfl, rfl⟩
    · obtain ⟨hinner, hparams⟩ := (handover_of_not_mem (hnew hlead)).1
      exact .inl ⟨hinner, captures, hlead, hparams⟩
    · obtain ⟨hinner, hparams⟩ := (handover_of_not_mem (hnew hlead)).1
      exact .inr ⟨lead, [], rfl, hinner, captures, hlead, hparams⟩
    · obtain ⟨hinner, hparams⟩ := (handover_of_not_mem (hnew hlead)).2 rest
      exact .inr ⟨lead, rest, rfl, hinner, made, hlead, hparams⟩
  · rintro (⟨rfl, captures, hlead, rfl⟩ | ⟨lead, rest, rfl, rfl, captures, hlead, rfl⟩)
    · obtain ⟨hinner, hparams⟩ := (handover_of_not_mem (hnew hlead)).1
      exact ⟨captures, .inl hlead, hinner.symm, hparams.symm⟩
    · -- With nothing behind the slash the parameter `_` is left out, and the path is `/` all the
      -- same.
      by_cases hrest : rest = []
      · obtain ⟨hinner, hparams⟩ := (handover_of_not_mem (hnew hlead)).1
        subst hrest
        exact ⟨captures, .inr (.inl ⟨lead, rfl, hlead⟩), hinner.symm, hparams.symm⟩
      · obtain ⟨hinner, hparams⟩ := (handover_of_not_mem (hnew hlead)).2 rest
        exact ⟨_, .inr (.inr ⟨lead, rest, captures, hrest, rfl, rfl, hlead⟩), hinner.symm,
          hparams.symm⟩

/-- What a mount hands over. Let the prefix without the slashes at its end be a pattern that has no
parameter `_`. Then every run gives what the request yields. Each level that it enters by the mount
is that of the mounted router for a path, with all its matches, and with inherited parameters; the
pairs of these are just the path `/` with what a match of the prefix with the whole path has
captured, and, for every slash in the path, that slash with all behind it, with what a match of the
prefix with the path before the slash has captured. -/
theorem descents_of_mount {single : Automaton Unit} (hbuild : build routes = .ok router)
    (hroute : routes[index]? = some (.mount methods pathPrefix child))
    (hallows : (Route.mount methods pathPrefix child).allows method = true)
    (hsingle : Automaton.ofPattern (pathPrefix.dropTrailing '/') = .ok single)
    (hname : ∀ nodes, parse (pathPrefix.dropTrailing '/') = .ok nodes → ∀ id optional,
      Node.parameter id remainderName optional ∉ Node.membersOfSequence nodes) (path : Text) :
    (∃ events, (router.dispatch method path).Runs events) ∧
    ∀ events, (router.dispatch method path).Runs events →
      (router.dispatch method path).Yields (events.filterMap Event.result?) ∧
      (∀ entered, Event.descend 0 index entered ∈ events → ∃ inner params,
        entered = ⟨child, child.automaton.matchesOf inner, params⟩) ∧
      {pair : Text × Params |
          Event.descend 0 index ⟨child, child.automaton.matchesOf pair.1, pair.2⟩ ∈ events} =
        {pair | pair.1 = ['/'] ∧
          ∃ found ∈ (single.matchesOf path).toList, pair.2 = found.params} ∪
        {pair | ∃ lead rest, path = lead ++ '/' :: rest ∧ pair.1 = '/' :: rest ∧
          ∃ found ∈ (single.matchesOf lead).toList, pair.2 = found.params} := by
  obtain ⟨paths, hpaths⟩ := Automaton.exists_ofPattern_eq_ok_iff.1 ⟨single, hsingle⟩
  obtain ⟨nodes, hnodes, -⟩ := exists_reads_iff hpaths
  obtain ⟨mountedPaths, hmountedPaths⟩ :=
    exists_build_eq_ok_iff.1 ⟨router, hbuild⟩ _ (List.mem_of_getElem? hroute)
  obtain ⟨mounted, hmounted, -⟩ := exists_reads_iff hmountedPaths
  have hown (lead : Text) (params : Params) :
      (∃ found ∈ (single.matchesOf lead).toList, params = found.params) ↔
        ∃ captures, Node.ReadsSequence nodes lead captures ∧ params = .ofCaptures captures := by
    rw [← Automaton.exists_mem_matchesOfPattern_iff hpaths hnodes lead, Automaton.matchesOfPattern,
      hsingle]
  refine ⟨exists_runs _, fun events hruns => ⟨hruns.yields, ?_, ?_⟩⟩
  · intro entered hentered
    obtain ⟨found, -, rfl⟩ := (mem_descend_iff hbuild hroute hallows hruns).1 hentered
    exact ⟨_, _, rfl⟩
  · ext ⟨inner, params⟩
    simp only [Set.mem_union, Set.mem_ofPred_eq, hown]
    rw [← exists_handover_iff hnodes hmounted (hname nodes hnodes),
      ← Automaton.exists_mem_matchesOfPattern_iff hmountedPaths hmounted path fun found =>
        inner = Level.innerPath found ∧ params = found.erase remainderName,
      mem_descend_iff hbuild hroute hallows hruns]
    simp only [enter_eq_descend_iff]
    rfl

end Mount

/-- The prefix `:a-:b/` matches `x-y-z` in two ways, so the router mounted under it is entered twice
for `x-y-z/q`, and its handler is found twice. -/
theorem descents_of_dashed : ∃ child router : Router Nat, build innerRoutes = .ok child ∧
    build [.mount [] [':', 'a', '-', ':', 'b', '/'] child] = .ok router ∧
    ∃ events, (router.dispatch .get ['x', '-', 'y', '-', 'z', '/', 'q']).Runs events ∧
      Event.descend 0 0 ⟨child, child.automaton.matchesOf ['/', 'q'],
        .ofCaptures [(['a'], ['x']), (['b'], ['y', '-', 'z'])]⟩ ∈ events ∧
      Event.descend 0 0 ⟨child, child.automaton.matchesOf ['/', 'q'],
        .ofCaptures [(['a'], ['x', '-', 'y']), (['b'], ['z'])]⟩ ∈ events ∧
      events.filterMap Event.result? =
        [⟨1, .ofCaptures [(['a'], ['x']), (['b'], ['y', '-', 'z']), (['x'], ['q'])], 0,
            ['/', ':', 'x']⟩,
          ⟨1, .ofCaptures [(['a'], ['x', '-', 'y']), (['b'], ['z']), (['x'], ['q'])], 0,
            ['/', ':', 'x']⟩] := by
  have hprefix : pathsOf [':', 'a', '-', ':', 'b'] =
      .ok [[.capture ['a'], .fixed ['-'], .capture ['b'], .accept ()]] := by decide +kernel
  have hmount : pathsOf (Route.mountPattern [':', 'a', '-', ':', 'b', '/']) =
      .ok [[.capture ['a'], .fixed ['-'], .capture ['b'], .fixed ['/'], .capture remainderName,
        .accept ()], [.capture ['a'], .fixed ['-'], .capture ['b'], .fixed ['/'], .accept ()],
        [.capture ['a'], .fixed ['-'], .capture ['b'], .accept ()]] := by decide +kernel
  have hparse : parse [':', 'a', '-', ':', 'b'] = .ok [.parameter 1 ['a'] false,
      .literal 2 ['-'], .parameter 3 ['b'] false] := rfl
  obtain ⟨child, hchild, hchildHandlers⟩ := exists_build_innerRoutes
  obtain ⟨router, hrouter⟩ := exists_build_eq_ok_iff.2
    (show ∀ route ∈ [Route.mount [] [':', 'a', '-', ':', 'b', '/'] child],
      ∃ paths, pathsOf route.pattern = .ok paths from List.forall_mem_singleton.2 ⟨_, hmount⟩)
  obtain ⟨single, hsingle⟩ := Automaton.exists_ofPattern_eq_ok_iff.2 ⟨_, hprefix⟩
  have hmatches : (single.matchesOf ['x', '-', 'y', '-', 'z']).toList =
      [⟨.ofCaptures [(['a'], ['x']), (['b'], ['y', '-', 'z'])], ()⟩,
        ⟨.ofCaptures [(['a'], ['x', '-', 'y']), (['b'], ['z'])], ()⟩] := by
    have hown := Automaton.matchesOfPattern_eq hprefix ['x', '-', 'y', '-', 'z']
    rw [Automaton.matchesOfPattern, hsingle] at hown
    exact hown.trans (by decide +kernel)
  have hroute : [Route.mount [] [':', 'a', '-', ':', 'b', '/'] child][0]? =
      some (.mount [] [':', 'a', '-', ':', 'b', '/'] child) := rfl
  have hallows : (Route.mount [] [':', 'a', '-', ':', 'b', '/'] child).allows .get = true := rfl
  obtain ⟨⟨events, hruns⟩, hset⟩ := descents_of_mount hrouter hroute hallows hsingle
    (fun nodes hnodes id optional => by
      obtain rfl := Except.ok.inj (hparse.symm.trans hnodes)
      simp [Node.membersOfSequence, Node.members, remainderName])
    ['x', '-', 'y', '-', 'z', '/', 'q']
  obtain ⟨hyields, -, hpairs⟩ := hset events hruns
  have hmem : ∀ found ∈ (single.matchesOf ['x', '-', 'y', '-', 'z']).toList,
      Event.descend 0 0 ⟨child, child.automaton.matchesOf ['/', 'q'], found.params⟩ ∈ events := by
    intro found hfound
    exact (Set.ext_iff.1 hpairs (['/', 'q'], found.params)).2
      (.inr ⟨['x', '-', 'y', '-', 'z'], ['q'], rfl, rfl, found, hfound, rfl⟩)
  rw [hmatches, List.forall_mem_cons, List.forall_mem_singleton] at hmem
  refine ⟨child, router, hchild, hrouter, events, hruns, hmem.1, hmem.2, ?_⟩
  refine (hyields.unique (yields_dispatch ..)).trans ?_
  have hfound : (router.automaton.matchesOf ['x', '-', 'y', '-', 'z', '/', 'q']).toList =
      [⟨.ofCaptures [(['a'], ['x']), (['b'], ['y', '-', 'z']), (remainderName, ['q'])], 0⟩,
        ⟨.ofCaptures [(['a'], ['x', '-', 'y']), (['b'], ['z']), (remainderName, ['q'])], 0⟩] := by
    rw [toList_matchesOf_of_forall₂ hrouter (.cons hmount .nil)]
    decide +kernel
  have hmerged (a b : Text) :
      (Params.ofCaptures [(['a'], a), (['b'], b)]).override (.ofCaptures [(['x'], ['q'])]) =
        .ofCaptures [(['a'], a), (['b'], b), (['x'], ['q'])] := rfl
  have hhanded (a b : Text) := (handover_of_not_mem
    (show remainderName ∉ [(['a'], a), (['b'], b)].map Prod.fst by simp [remainderName])).2 ['q']
  simp only [List.cons_append, List.nil_append] at hhanded
  have hroutes := (build_eq_ok_iff.1 hrouter).1
  rw [handlers, handlersFrom_eq, hfound]
  simp [handlersOf, hroutes, Route.mount, Route.allows, Params.empty_override, hhanded,
    hchildHandlers, hmerged]

end Router

end RoutePattern
