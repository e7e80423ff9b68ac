import RoutePattern.Proofs.Automaton.Patterns
import RoutePattern.Router.Handlers

/-!
# What a dispatch lists

A dispatch keeps the levels that it has entered, each with the matches that it has not looked at.
`Level.pendingAll` is what the recursive reading of the route table still has to list then: the
rest of the innermost level first, that of the router of the request last. One request takes the
first handler off this list (`pendingAll_of_advanceAll`), so asking until there is none lists
`Router.handlers` (`Router.yields_dispatch`).

In a router that was built, every tag is the place of a route (`exists_route_of_mem_matches`), so
the route table can be read match by match. `Router.Lists` says what this reading lists, with the
parameters and the paths of mounted routers given by look-ups, and it lists what
`Router.handlers` does (`Built.lists_iff`).
-/

namespace RoutePattern

variable {η : Type}

/-- Asking for the next handler until there is none gives these handlers. -/
inductive Dispatch.Yields : Dispatch η → List (RouteMatch η) → Prop
  | done {dispatch left : Dispatch η} (hnext : dispatch.next = (none, left)) : Yields dispatch []
  | found {dispatch left : Dispatch η} {first : RouteMatch η} {rest : List (RouteMatch η)}
      (hnext : dispatch.next = (some first, left)) (hrest : Yields left rest) :
      Yields dispatch (first :: rest)

namespace Route

variable {route : Route η} {method : Method}

theorem allows_eq_true_iff :
    route.allows method = true ↔ route.methods = [] ∨ method ∈ route.methods := by
  simp [allows]

theorem allows_eq_false_iff :
    route.allows method = false ↔ route.methods ≠ [] ∧ method ∉ route.methods := by
  simp [allows]

end Route

namespace Router

/-- What one match contributes to the handlers of a router. -/
def handlersOf (router : Router η) (method : Method) (inherited : Params) (found : Match Nat) :
    List (RouteMatch η) :=
  match router.routes[found.tag]? with
  | none => []
  | some route =>
    if route.allows method then
      let params := inherited.override found.params
      match route.target with
      | .handler handler => [⟨handler, params, found.tag, route.pattern⟩]
      | .mount child =>
        child.handlersFrom method (Level.innerPath params) (params.erase remainderName)
    else []

theorem handlersFrom_eq (router : Router η) (method : Method) (path : Text) (inherited : Params) :
    router.handlersFrom method path inherited =
      (router.automaton.matchesOf path).toList.flatMap (router.handlersOf method inherited) := by
  rw [handlersFrom]
  congr 1
  funext found
  rw [handlersOf]
  split
  · next h => simp [h]
  · next route h =>
    simp only [h]
    split
    · split
      · next htarget => simp [htarget]
      · next htarget => simp [htarget]
    · rfl

end Router

namespace Level

/-- The handlers that a level still has to give. -/
def pending (method : Method) (level : Level η) : List (RouteMatch η) :=
  level.found.toList.flatMap (level.router.handlersOf method level.inherited)

/-- The handlers that a chain of levels still has to give, those of the innermost level first. -/
def pendingAll (method : Method) : List (Level η) → List (RouteMatch η)
  | [] => []
  | level :: inner => pendingAll method inner ++ level.pending method

theorem pending_enter (method : Method) (router : Router η) (path : Text) (inherited : Params) :
    (enter router path inherited).pending method = router.handlersFrom method path inherited :=
  (router.handlersFrom_eq method path inherited).symm

theorem pending_descend (method : Method) (router : Router η) (params : Params) :
    (descend router params).pending method =
      router.handlersFrom method (innerPath params) (params.erase remainderName) :=
  pending_enter method router (innerPath params) (params.erase remainderName)

theorem pending_of_next_none {method : Method} {level : Level η} {left : Matches Nat}
    (h : level.found.next = (none, left)) : level.pending method = [] := by
  rw [pending, Matches.toList_of_next_none h, List.flatMap_nil]

theorem pending_of_next_some {method : Method} {level : Level η} {first : Match Nat}
    {left : Matches Nat} (h : level.found.next = (some first, left)) :
    level.pending method = level.router.handlersOf method level.inherited first ++
      ({ level with found := left } : Level η).pending method := by
  rw [pending, Matches.toList_of_next_some h, List.flatMap_cons, pending]

/-- A level gives its first handler, and the chain behind it has the others; a level without one
leaves no chain. -/
theorem pending_of_advance {method : Method} {level : Level η} {result : Option (RouteMatch η)}
    {levels : List (Level η)} (h : level.advance method = (result, levels)) :
    level.pending method = result.toList ++ pendingAll method levels ∧
      (result = none → levels = []) := by
  fun_induction advance method level generalizing result levels with
  | case1 level left hnext =>
    obtain ⟨rfl, rfl⟩ := Prod.mk.inj h
    exact ⟨pending_of_next_none hnext, fun _ => rfl⟩
  | case2 level found left hnext following hroute =>
    next ih =>
      rw [pending_of_next_some hnext, Router.handlersOf, hroute]
      exact ih h
  | case3 level found left hnext following route hroute hallows params =>
    next handler htarget =>
      obtain ⟨rfl, rfl⟩ := Prod.mk.inj h
      rw [pending_of_next_some hnext, Router.handlersOf, hroute]
      simp [hallows, htarget, pendingAll, following, params]
  | case4 level found left hnext following route hroute hallows params child htarget result inner =>
    next hinner ih =>
      -- The mounted router has found a handler, and its levels stay in front of this one.
      obtain ⟨rfl, rfl⟩ := Prod.mk.inj h
      obtain ⟨hchild, -⟩ := ih hinner
      rw [pending_descend] at hchild
      rw [pending_of_next_some hnext, Router.handlersOf, hroute]
      simp only [hallows, htarget, ↓reduceIte]
      rw [hchild, pendingAll, List.append_assoc]
      exact ⟨rfl, nofun⟩
  | case5 level found left hnext following route hroute hallows params child htarget inner hinner =>
    next ihchild ih =>
      -- The mounted router has found nothing, so this level goes on.
      obtain ⟨hchild, hleft⟩ := ihchild hinner
      rw [pending_descend, hleft rfl] at hchild
      rw [pending_of_next_some hnext, Router.handlersOf, hroute]
      simp only [hallows, htarget, ↓reduceIte]
      rw [hchild]
      exact ih h
  | case6 level found left hnext following route hroute =>
    next hallows ih =>
      rw [pending_of_next_some hnext, Router.handlersOf, hroute]
      simp only [hallows]
      exact ih h

/-- The same for a chain of levels: a level without one more handler is left. -/
theorem pendingAll_of_advanceAll {method : Method} {levels : List (Level η)}
    {result : Option (RouteMatch η)} {left : List (Level η)}
    (h : advanceAll method levels = (result, left)) :
    pendingAll method levels = result.toList ++ pendingAll method left ∧
      (result = none → left = []) := by
  induction levels generalizing result left with
  | nil =>
    obtain ⟨rfl, rfl⟩ := Prod.mk.inj h
    exact ⟨rfl, fun _ => rfl⟩
  | cons level inner ih =>
    rw [advanceAll] at h
    split at h
    · next first deeper hinner =>
      obtain ⟨rfl, rfl⟩ := Prod.mk.inj h
      rw [pendingAll, (ih hinner).1, pendingAll, List.append_assoc]
      exact ⟨rfl, nofun⟩
    · next deeper hinner =>
      obtain ⟨hdeeper, hleft⟩ := ih hinner
      rw [hleft rfl] at hdeeper
      rw [pendingAll, hdeeper]
      exact pending_of_advance h

end Level

/-! ## A request to its end -/

namespace Dispatch

/-- The handlers that a request still has to give. -/
def pending (dispatch : Dispatch η) : List (RouteMatch η) :=
  Level.pendingAll dispatch.method dispatch.levels

theorem pending_of_next {dispatch left : Dispatch η} {result : Option (RouteMatch η)}
    (h : dispatch.next = (result, left)) :
    dispatch.pending = result.toList ++ left.pending ∧ (result = none → left.pending = []) := by
  obtain ⟨rfl, rfl⟩ := Prod.mk.inj h
  obtain ⟨hpending, hleft⟩ :=
    Level.pendingAll_of_advanceAll (rfl : Level.advanceAll dispatch.method dispatch.levels = _)
  refine ⟨hpending, ?_⟩
  intro hnone
  show Level.pendingAll dispatch.method _ = []
  rw [hleft hnone, Level.pendingAll]

/-- A request gives what it has to give, and then it is at its end. -/
theorem yields_pending (dispatch : Dispatch η) : dispatch.Yields dispatch.pending := by
  induction hpending : dispatch.pending generalizing dispatch with
  | nil =>
    rcases hnext : dispatch.next with ⟨_ | first, left⟩
    · exact .done hnext
    · simp [(pending_of_next hnext).1] at hpending
  | cons first rest ih =>
    rcases hnext : dispatch.next with ⟨_ | other, left⟩
    · obtain ⟨hsplit, hleft⟩ := pending_of_next hnext
      simp [hsplit, hleft rfl] at hpending
    · rw [(pending_of_next hnext).1] at hpending
      obtain ⟨rfl, hrest⟩ := List.cons_eq_cons.1 hpending
      exact .found hnext (ih left hrest)

/-- A request gives one list of handlers only. -/
theorem Yields.unique {dispatch : Dispatch η} {results others : List (RouteMatch η)}
    (h : dispatch.Yields results) (hothers : dispatch.Yields others) : results = others := by
  induction h generalizing others with
  | done hnext =>
    cases hothers with
    | done => rfl
    | found hother => cases hnext.symm.trans hother
  | found hnext _ ih =>
    cases hothers with
    | done hother => cases hnext.symm.trans hother
    | found hother hrest =>
      cases hnext.symm.trans hother
      rw [ih hrest]

end Dispatch

namespace Router

theorem pending_dispatch (router : Router η) (method : Method) (path : Text) :
    (router.dispatch method path).pending = router.handlers method path := by
  show [] ++ (Level.enter router path .empty).pending method = _
  rw [List.nil_append, Level.pending_enter, handlers]

theorem yields_dispatch (router : Router η) (method : Method) (path : Text) :
    (router.dispatch method path).Yields (router.handlers method path) := by
  rw [← pending_dispatch]
  exact Dispatch.yields_pending _

/-! ## The reading of the route table -/

/-- What the matches of a router list, in their order. A match of a route for other methods lists
nothing; one of a handler lists it, with the captures of the match in front of those that are
inherited; and one of a mount lists, in place, what the mounted router lists for a slash and the
text of `_`, which the mounted router does not inherit. -/
inductive Lists (method : Method) :
    Router η → Params → List (Match Nat) → List (RouteMatch η) → Prop
  | nil {router : Router η} {inherited : Params} : Lists method router inherited [] []
  | other {router : Router η} {inherited : Params} {found : Match Nat} {rest : List (Match Nat)}
      {results : List (RouteMatch η)} {route : Route η}
      (hroute : router.routes[found.tag]? = some route)
      (hmethods : route.methods ≠ [] ∧ method ∉ route.methods)
      (hrest : Lists method router inherited rest results) :
      Lists method router inherited (found :: rest) results
  | handler {router : Router η} {inherited params : Params} {found : Match Nat}
      {rest : List (Match Nat)} {results : List (RouteMatch η)} {route : Route η} {handler : η}
      (hroute : router.routes[found.tag]? = some route)
      (hmethods : route.methods = [] ∨ method ∈ route.methods)
      (htarget : route.target = .handler handler)
      (hparams : ∀ name, params.get? name = (found.params.get? name).or (inherited.get? name))
      (hrest : Lists method router inherited rest results) :
      Lists method router inherited (found :: rest)
        (⟨handler, params, found.tag, route.pattern⟩ :: results)
  | mount {router child : Router η} {inherited params handed : Params} {path : Text}
      {found : Match Nat} {rest : List (Match Nat)} {results inner : List (RouteMatch η)}
      {route : Route η} (hroute : router.routes[found.tag]? = some route)
      (hmethods : route.methods = [] ∨ method ∈ route.methods)
      (htarget : route.target = .mount child)
      (hparams : ∀ name, params.get? name = (found.params.get? name).or (inherited.get? name))
      (hpath : path = '/' :: (params.get? remainderName).getD [])
      (hhanded : ∀ name, handed.get? name =
        if name = remainderName then none else params.get? name)
      (hinner : Lists method child handed (child.automaton.matchesOf path).toList inner)
      (hrest : Lists method router inherited rest results) :
      Lists method router inherited (found :: rest) (inner ++ results)

/-- What is listed is what the matches contribute, one after the other. -/
theorem Lists.eq_flatMap {method : Method} {router : Router η} {inherited : Params}
    {found : List (Match Nat)} {results : List (RouteMatch η)}
    (h : Lists method router inherited found results) :
    results = found.flatMap (router.handlersOf method inherited) := by
  induction h with
  | nil => rfl
  | other hroute hmethods _ ih =>
    have hallows := Route.allows_eq_false_iff.2 hmethods
    simp [handlersOf, hroute, hallows, ih]
  | @handler router inherited params found rest results route handler hroute hmethods htarget
      hparams _ ih =>
    have hallows := Route.allows_eq_true_iff.2 hmethods
    obtain rfl : params = inherited.override found.params := Params.eq_override_iff.2 hparams
    simp [handlersOf, hroute, hallows, htarget, ih]
  | @mount router child inherited params handed path found rest results inner route hroute hmethods
      htarget hparams hpath hhanded _ _ ihinner ih =>
    have hallows := Route.allows_eq_true_iff.2 hmethods
    obtain rfl : params = inherited.override found.params := Params.eq_override_iff.2 hparams
    obtain rfl : handed = _ := Params.eq_erase_iff.2 hhanded
    rw [← handlersFrom_eq, hpath] at ihinner
    rw [List.flatMap_cons, ← ih, ihinner, handlersOf]
    simp only [hroute, hallows, htarget, ↓reduceIte]
    rfl

/-! ## Routers that were built -/

/-- The router was built of its routes, and so was every router that they mount. -/
inductive Built : Router η → Prop
  | build {routes : List (Route η)} {router : Router η} (hbuild : build routes = .ok router)
      (hmounts : ∀ route ∈ routes, ∀ child, route.target = .mount child → Built child) :
      Built router

/-- The second router is the first one or is mounted in it, at any depth. -/
inductive Holds (router : Router η) : Router η → Prop
  | self : Holds router router
  | mounted {inner child : Router η} {route : Route η} (hinner : Holds router inner)
      (hroute : route ∈ inner.routes) (htarget : route.target = .mount child) : Holds router child

theorem build_eq_ok_iff {routes : List (Route η)} {router : Router η} :
    build routes = .ok router ↔ router.routes = routes ∧
      Automaton.ofPatterns (routes.zipIdx.map fun (route, index) => (route.pattern, index)) =
        .ok router.automaton := by
  obtain ⟨own, automaton⟩ := router
  simp only [build, bind_eq_ok_iff, pure_eq_ok_iff, Router.mk.injEq]
  constructor
  · rintro ⟨_, hautomaton, rfl, rfl⟩
    exact ⟨rfl, hautomaton⟩
  · rintro ⟨rfl, hautomaton⟩
    exact ⟨automaton, hautomaton, rfl, rfl⟩

/-- The matches of a router are those of its patterns, one pattern after the other, with the place
of its route. -/
theorem toList_matchesOf_of_build {routes : List (Route η)} {router : Router η}
    (h : build routes = .ok router) (path : Text) :
    (router.automaton.matchesOf path).toList = router.patterns.zipIdx.flatMap fun entry =>
      (Automaton.matchesOfPattern entry.1 path).map (Match.retag entry.2) := by
  obtain ⟨rfl, hautomaton⟩ := build_eq_ok_iff.1 h
  rw [Automaton.toList_matchesOf_ofPatterns hautomaton, patterns, List.zipIdx_map]
  rfl

/-- The matches of a router by the paths of its patterns. -/
theorem toList_matchesOf_of_forall₂ {routes : List (Route η)} {router : Router η}
    {pools : List (List (Path Unit))} (h : build routes = .ok router)
    (hpools : List.Forall₂ (fun route pool => pathsOf route.pattern = .ok pool) routes pools)
    (path : Text) :
    (router.automaton.matchesOf path).toList = pools.zipIdx.flatMap fun entry =>
      (entry.1.flatMap fun own => own.matches path).map (Match.retag entry.2) := by
  obtain ⟨rfl, -⟩ := build_eq_ok_iff.1 h
  have hown : pools.map (fun pool => pool.flatMap fun own => own.matches path) =
      router.patterns.map fun pattern => Automaton.matchesOfPattern pattern path := by
    rw [patterns, List.map_map]
    exact map_eq_of_forall₂ hpools fun _ _ hpool => (Automaton.matchesOfPattern_eq hpool path).symm
  have hplaces {α : Type} (f : α → List (Match Unit)) (l : List α) :
      ((l.map f).zipIdx.flatMap fun entry => entry.1.map (Match.retag entry.2)) =
        l.zipIdx.flatMap fun entry => (f entry.1).map (Match.retag entry.2) := by
    rw [List.zipIdx_map, List.flatMap_map]
    rfl
  rw [toList_matchesOf_of_build h, ← hplaces fun pattern => Automaton.matchesOfPattern pattern path,
    ← hown, hplaces]

/-- Routes make a router if each of their patterns is accepted. -/
theorem exists_build_eq_ok_iff {routes : List (Route η)} :
    (∃ router, build routes = .ok router) ↔
      ∀ route ∈ routes, ∃ paths, pathsOf route.pattern = .ok paths := by
  have hpatterns : (∃ automaton, Automaton.ofPatterns
      (routes.zipIdx.map fun (route, index) => (route.pattern, index)) = .ok automaton) ↔
      ∀ route ∈ routes, ∃ paths, pathsOf route.pattern = .ok paths := by
    rw [Automaton.exists_ofPatterns_eq_ok_iff, List.forall_mem_map]
    constructor
    · intro h route hroute
      obtain ⟨place, hplace⟩ := List.mem_iff_getElem?.1 hroute
      exact h (route, place) (List.mem_zipIdx_iff_getElem?.2 hplace)
    · rintro h ⟨route, place⟩ hentry
      exact h route (List.mem_of_getElem? (List.mem_zipIdx_iff_getElem?.1 hentry))
  simp only [build_eq_ok_iff, ← hpatterns]
  constructor
  · rintro ⟨router, -, hautomaton⟩
    exact ⟨router.automaton, hautomaton⟩
  · rintro ⟨automaton, hautomaton⟩
    exact ⟨⟨routes, automaton⟩, rfl, hautomaton⟩

theorem Built.of_holds {router inner : Router η} (h : router.Built) (hinner : router.Holds inner) :
    inner.Built := by
  induction hinner with
  | self => exact h
  | mounted _ hroute htarget ih =>
    obtain ⟨hbuild, hmounts⟩ := ih
    rw [(build_eq_ok_iff.1 hbuild).1] at hroute
    exact hmounts _ hroute _ htarget

/-- Every tag that a built router finds is the place of one of its routes. -/
theorem Built.exists_route_of_mem_matches {router : Router η} (h : router.Built) {path : Text}
    {found : Match Nat} (hfound : found ∈ (router.automaton.matchesOf path).toList) :
    ∃ route, router.routes[found.tag]? = some route := by
  obtain ⟨hbuild, -⟩ := h
  obtain ⟨rfl, hautomaton⟩ := build_eq_ok_iff.1 hbuild
  obtain ⟨⟨pattern, index⟩, hentry, rfl⟩ := Automaton.exists_tag_of_mem_matches hautomaton hfound
  obtain ⟨⟨route, place⟩, hroute, heq⟩ := List.mem_map.1 hentry
  obtain ⟨-, rfl⟩ := Prod.mk.inj heq
  exact ⟨route, List.mem_zipIdx_iff_getElem?.1 hroute⟩

/-- The table of a built router lists something for all matches whose tags are places of routes. -/
theorem Built.lists_flatMap {router : Router η} (h : router.Built) (method : Method)
    {inherited : Params} {found : List (Match Nat)}
    (hplaces : ∀ first ∈ found, ∃ route, router.routes[first.tag]? = some route) :
    router.Lists method inherited found (found.flatMap (router.handlersOf method inherited)) := by
  induction h generalizing inherited found with
  | @build routes router hbuild hmounts ih =>
    obtain ⟨rfl, -⟩ := build_eq_ok_iff.1 hbuild
    induction found with
    | nil => exact .nil
    | cons first rest ihrest =>
      obtain ⟨route, hroute⟩ := hplaces first List.mem_cons_self
      have hrest := ihrest fun later hlater => hplaces later (List.mem_cons_of_mem _ hlater)
      rw [List.flatMap_cons, handlersOf]
      simp only [hroute]
      cases hallows : route.allows method with
      | false => exact .other hroute (Route.allows_eq_false_iff.1 hallows) hrest
      | true =>
        have hmethods := Route.allows_eq_true_iff.1 hallows
        have hparams := Params.get?_override inherited first.params
        cases htarget : route.target with
        | handler handler => exact .handler hroute hmethods htarget hparams hrest
        | mount child =>
          have hmem := List.mem_of_getElem? hroute
          -- The mounted router is built too, so the tags of all its matches are places.
          have hinner (path : Text) (handed : Params) :
              child.Lists method handed (child.automaton.matchesOf path).toList
                (child.handlersFrom method path handed) := by
            rw [handlersFrom_eq]
            apply ih route hmem child htarget
            intro later hlater
            exact (hmounts route hmem child htarget).exists_route_of_mem_matches hlater
          exact .mount hroute hmethods htarget hparams rfl (Params.get?_erase _ _) (hinner _ _)
            hrest

/-- For a path the table of a built router lists the handlers of the router, and nothing else. -/
theorem Built.lists_iff {router : Router η} (h : router.Built) {method : Method} {path : Text}
    {inherited : Params} {results : List (RouteMatch η)} :
    router.Lists method inherited (router.automaton.matchesOf path).toList results ↔
      results = router.handlersFrom method path inherited := by
  rw [handlersFrom_eq]
  constructor
  · exact Lists.eq_flatMap
  · rintro rfl
    exact h.lists_flatMap method fun found hfound => h.exists_route_of_mem_matches hfound

/-- Asking a request for its handlers until there is none gives a list of handlers, and this is what
the recursive reading of the route table lists for the path. The tags that it meets on the way are
places of routes. -/
theorem Built.yields_handlers {router : Router η} (h : router.Built) (method : Method)
    (path : Text) :
    (router.dispatch method path).Yields (router.handlers method path) ∧
      (∀ results, (router.dispatch method path).Yields results ↔
        router.Lists method .empty (router.automaton.matchesOf path).toList results) ∧
      ∀ inner, router.Holds inner → ∀ input,
        ∀ found ∈ (inner.automaton.matchesOf input).toList,
          ∃ route, inner.routes[found.tag]? = some route := by
  have hyields := yields_dispatch router method path
  refine ⟨hyields, ?_, ?_⟩
  · intro results
    rw [h.lists_iff]
    constructor
    · exact fun hresults => hresults.unique hyields
    · rintro rfl
      exact hyields
  · intro inner hinner input found hfound
    exact (h.of_holds hinner).exists_route_of_mem_matches hfound

/-- A route with a parameter. -/
def innerRoutes : List (Route Nat) := [⟨['/', ':', 'x'], [], .handler 1⟩]

/-- The pattern of `innerRoutes` has one path. -/
theorem pathsOf_innerRoutes :
    pathsOf ['/', ':', 'x'] = .ok [[.fixed ['/'], .capture ['x'], .accept ()]] := by
  decide +kernel

/-- The routes of `innerRoutes` make a router, and for a path of a slash and one more character its
handler gets this character, whatever it inherits. -/
theorem exists_build_innerRoutes : ∃ router : Router Nat, build innerRoutes = .ok router ∧
    ∀ method c inherited, c ≠ '/' → router.handlersFrom method ['/', c] inherited =
      [⟨1, inherited.override (.ofCaptures [(['x'], [c])]), 0, ['/', ':', 'x']⟩] := by
  obtain ⟨router, hrouter⟩ := exists_build_eq_ok_iff.2
    (show ∀ route ∈ innerRoutes, ∃ paths, pathsOf route.pattern = .ok paths from
      List.forall_mem_singleton.2 ⟨_, pathsOf_innerRoutes⟩)
  refine ⟨router, hrouter, fun method c inherited hc => ?_⟩
  have hcuts : Path.cuts [Kind.fixed ['/'], .capture ['x'], .accept ()] ['/', c] =
      [[['/'], [c]]] := by
    have hslash : List.isPrefixOf? ['/'] ['/', c] = some [c] := rfl
    simp [Path.cuts, hslash, Path.values, hc]
  have hfound : (router.automaton.matchesOf ['/', c]).toList =
      [⟨.ofCaptures [(['x'], [c])], 0⟩] := by
    rw [toList_matchesOf_of_forall₂ hrouter (.cons pathsOf_innerRoutes .nil)]
    simp [Path.matches, Path.tag?, hcuts, Match.retag]
  have hroutes := (build_eq_ok_iff.1 hrouter).1
  simp [handlersFrom_eq, handlersOf, hfound, hroutes, innerRoutes, Route.allows]

/-- A route with a parameter of another name, and the one of `innerRoutes`. -/
def shadowingRoutes : List (Route Nat) := ⟨['/', ':', 'a'], [], .handler 2⟩ :: innerRoutes

/-- A mount that captures, a route for other methods, and a handler that sees every request. -/
def outerRoutes (inner : Router Nat) : List (Route Nat) :=
  [.mount [] ['/', ':', 'a'] inner, ⟨['/', ':', 'a', '/', ':', 'y'], [.post], .handler 3⟩,
    .middleware 4]

/-- Under the mount the first route captures under the name that the mount has captured under, so
its own capture counts; the second one inherits that of the mount. -/
theorem yields_outerRoutes : ∃ inner router : Router Nat, build shadowingRoutes = .ok inner ∧
    build (outerRoutes inner) = .ok router ∧ router.Built ∧
    ∃ results, (router.dispatch .get ['/', 'u', '/', 'v']).Yields results ∧
      router.Lists .get .empty (router.automaton.matchesOf ['/', 'u', '/', 'v']).toList results ∧
      results = [⟨2, .ofCaptures [(['a'], ['v'])], 0, ['/', ':', 'a']⟩,
        ⟨1, .ofCaptures [(['a'], ['u']), (['x'], ['v'])], 1, ['/', ':', 'x']⟩,
        ⟨4, .ofCaptures [(remainderName, ['/', 'u', '/', 'v'])], 2, Route.anyPath⟩] := by
  have ha : pathsOf ['/', ':', 'a'] = .ok [[.fixed ['/'], .capture ['a'], .accept ()]] := by
    decide +kernel
  have hmount : pathsOf (Route.mountPattern ['/', ':', 'a']) =
      .ok [[.fixed ['/'], .capture ['a'], .fixed ['/'], .capture remainderName, .accept ()],
        [.fixed ['/'], .capture ['a'], .fixed ['/'], .accept ()],
        [.fixed ['/'], .capture ['a'], .accept ()]] := by
    decide +kernel
  have hy : pathsOf ['/', ':', 'a', '/', ':', 'y'] =
      .ok [[.fixed ['/'], .capture ['a'], .fixed ['/'], .capture ['y'], .accept ()]] := by
    decide +kernel
  have hany : pathsOf Route.anyPath = .ok [[.capture remainderName, .accept ()], [.accept ()]] := by
    decide +kernel
  obtain ⟨inner, hinner⟩ := exists_build_eq_ok_iff.2
    (show ∀ route ∈ shadowingRoutes, ∃ paths, pathsOf route.pattern = .ok paths by
      simp [shadowingRoutes, innerRoutes, ha, pathsOf_innerRoutes])
  obtain ⟨router, hrouter⟩ := exists_build_eq_ok_iff.2
    (show ∀ route ∈ outerRoutes inner, ∃ paths, pathsOf route.pattern = .ok paths by
      simp [outerRoutes, Route.mount, Route.middleware, hmount, hy, hany])
  have hbuilt : inner.Built := .build hinner (by simp [shadowingRoutes, innerRoutes])
  have houter : router.Built :=
    .build hrouter (by simp [outerRoutes, Route.mount, Route.middleware, hbuilt])
  have hroutes := (build_eq_ok_iff.1 hrouter).1
  have hinnerRoutes := (build_eq_ok_iff.1 hinner).1
  have hfound : (router.automaton.matchesOf ['/', 'u', '/', 'v']).toList =
      [⟨.ofCaptures [(['a'], ['u']), (remainderName, ['v'])], 0⟩,
        ⟨.ofCaptures [(['a'], ['u']), (['y'], ['v'])], 1⟩,
        ⟨.ofCaptures [(remainderName, ['/', 'u', '/', 'v'])], 2⟩] := by
    rw [toList_matchesOf_of_forall₂ hrouter (.cons hmount (.cons hy (.cons hany .nil)))]
    decide +kernel
  have hinnerFound : (inner.automaton.matchesOf ['/', 'v']).toList =
      [⟨.ofCaptures [(['a'], ['v'])], 0⟩, ⟨.ofCaptures [(['x'], ['v'])], 1⟩] := by
    rw [toList_matchesOf_of_forall₂ hinner (.cons ha (.cons pathsOf_innerRoutes .nil))]
    decide +kernel
  have hhanded : (Params.ofCaptures [(['a'], ['u']), (remainderName, ['v'])]).erase remainderName =
      .ofCaptures [(['a'], ['u'])] := by decide +kernel
  have hpath : Level.innerPath (.ofCaptures [(['a'], ['u']), (remainderName, ['v'])]) =
      ['/', 'v'] := by decide +kernel
  have hshadowed : (Params.ofCaptures [(['a'], ['u'])]).override (.ofCaptures [(['a'], ['v'])]) =
      .ofCaptures [(['a'], ['v'])] := by decide +kernel
  have hinherited : (Params.ofCaptures [(['a'], ['u'])]).override (.ofCaptures [(['x'], ['v'])]) =
      .ofCaptures [(['a'], ['u']), (['x'], ['v'])] := by decide +kernel
  have hhandlers : router.handlers .get ['/', 'u', '/', 'v'] =
      [⟨2, .ofCaptures [(['a'], ['v'])], 0, ['/', ':', 'a']⟩,
        ⟨1, .ofCaptures [(['a'], ['u']), (['x'], ['v'])], 1, ['/', ':', 'x']⟩,
        ⟨4, .ofCaptures [(remainderName, ['/', 'u', '/', 'v'])], 2, Route.anyPath⟩] := by
    simp [handlers, handlersFrom_eq, handlersOf, hfound, hinnerFound, hroutes, hinnerRoutes,
      outerRoutes, shadowingRoutes, innerRoutes, Route.mount, Route.middleware, Route.allows,
      Params.empty_override, hhanded, hpath, hshadowed, hinherited]
  obtain ⟨hyields, hlists, -⟩ := houter.yields_handlers .get ['/', 'u', '/', 'v']
  exact ⟨inner, router, hinner, hrouter, houter, _, hyields, (hlists _).1 hyields, hhandlers⟩

end Router

end RoutePattern
