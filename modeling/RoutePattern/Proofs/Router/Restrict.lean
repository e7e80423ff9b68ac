import Mathlib.Data.List.Induction
import RoutePattern.Proofs.Router.Turns

/-!
# A router for one method

`Router.restrict` deletes the routes that do not answer a method, at every depth, and builds what is
left anew, with other automata. A match of a route that is kept is found there too, under the place
that the route has among the kept ones (`Mirrors.enter`). So a turn of a request is a turn of the
same request to what is left, or passes over a route that is not there (`Turn.exists_mirrored`), and
the deleted routes leave no trace (`yields_restrict`).
-/

namespace RoutePattern

variable {η : Type}

/-! ## Places after a deletion -/

section Filter

variable {α : Type} {p : α → Bool} {l : List α} {a : α} {index : Nat}

/-- An element that is kept has as many elements before it as are kept before it. -/
theorem zipIdx_filter (p : α → Bool) (l : List α) :
    (l.filter p).zipIdx =
      (l.zipIdx.filter fun entry => p entry.1).map fun entry =>
        (entry.1, (l.take entry.2).countP p) := by
  induction l using List.reverseRecOn with
  | nil => rfl
  | append_singleton l a ih =>
    have hsame : ((l.zipIdx.filter fun entry => p entry.1).map fun entry =>
        (entry.1, ((l ++ [a]).take entry.2).countP p)) =
        (l.zipIdx.filter fun entry => p entry.1).map fun entry =>
          (entry.1, (l.take entry.2).countP p) := by
      refine List.map_congr_left fun entry hentry => ?_
      have hlt := List.snd_lt_of_mem_zipIdx (List.mem_of_mem_filter hentry)
      rw [List.take_append_of_le_length (by omega)]
    rw [List.filter_append, List.zipIdx_append, ih, List.zipIdx_append, List.filter_append,
      List.map_append, hsame]
    congr 1
    by_cases ha : p a = true
    · simp [ha, List.countP_eq_length_filter]
    · simp [ha]

theorem getElem?_filter (h : l[index]? = some a) (ha : p a = true) :
    (l.filter p)[(l.take index).countP p]? = some a := by
  have hmem : (a, (l.take index).countP p) ∈ (l.filter p).zipIdx := by
    rw [zipIdx_filter]
    refine List.mem_map.2 ⟨(a, index), List.mem_filter.2 ⟨?_, ha⟩, rfl⟩
    exact List.mem_zipIdx_iff_getElem?.2 h
  exact List.mem_zipIdx_iff_getElem?.1 hmem

theorem flatMap_filter {β : Type} (p : α → Bool) (l : List α) (f : α → List β) :
    (l.filter p).flatMap f = l.flatMap fun a => if p a = true then f a else [] := by
  induction l with
  | nil => rfl
  | cons a l ih =>
    rw [List.filter_cons, List.flatMap_cons, ← ih]
    split <;> rfl

end Filter

namespace Router

/-! ## Deleting routes -/

mutual

/-- What is left of a router for a method, built anew, or why it cannot be built. -/
def restrict (method : Method) : Router η → Except PatternError (Router η)
  | ⟨routes, _⟩ => do build (← restrictRoutes method routes)

/-- The routes that answer the method. -/
def restrictRoutes (method : Method) : List (Route η) → Except PatternError (List (Route η))
  | [] => .ok []
  | route :: rest => do
    if route.allows method then
      let first ← restrictRoute method route
      let others ← restrictRoutes method rest
      return first :: others
    else restrictRoutes method rest

/-- The route with what is left of the router that it mounts. -/
def restrictRoute (method : Method) : Route η → Except PatternError (Route η)
  | ⟨pattern, methods, .handler handler⟩ => .ok ⟨pattern, methods, .handler handler⟩
  | ⟨pattern, methods, .mount child⟩ => do
    return ⟨pattern, methods, .mount (← restrict method child)⟩

end

theorem restrictRoutes_eq (method : Method) (routes : List (Route η)) :
    restrictRoutes method routes =
      (routes.filter fun route => route.allows method).mapM (restrictRoute method) := by
  induction routes with
  | nil => rfl
  | cons route rest ih =>
    rw [restrictRoutes, ih, List.filter_cons]
    split
    · rw [List.mapM_cons]
    · rfl

variable {router kept child : Router η} {route : Route η} {method : Method}

theorem restrict_eq_ok_iff : restrict method router = .ok kept ↔
    List.Forall₂ (fun route own => restrictRoute method route = .ok own)
      (router.routes.filter fun route => route.allows method) kept.routes ∧
      build kept.routes = .ok kept := by
  obtain ⟨routes, automaton⟩ := router
  rw [restrict, restrictRoutes_eq, bind_eq_ok_iff]
  constructor
  · rintro ⟨own, hown, hbuild⟩
    obtain ⟨rfl, -⟩ := build_eq_ok_iff.1 hbuild
    exact ⟨mapM_eq_ok_iff.1 hown, hbuild⟩
  · rintro ⟨hown, hbuild⟩
    exact ⟨_, mapM_eq_ok_iff.2 hown, hbuild⟩

/-- A route keeps its pattern and its methods. -/
theorem pattern_eq_of_restrictRoute {own : Route η} (h : restrictRoute method route = .ok own) :
    own.pattern = route.pattern ∧ own.methods = route.methods := by
  obtain ⟨pattern, methods, handler | child⟩ := route
  · cases h
    exact ⟨rfl, rfl⟩
  · obtain ⟨left, -, hleft⟩ := bind_eq_ok_iff.1 h
    cases hleft
    exact ⟨rfl, rfl⟩

theorem target_eq_handler_of_restrictRoute {own : Route η} {handler : η}
    (h : restrictRoute method route = .ok own) (htarget : route.target = .handler handler) :
    own.target = .handler handler := by
  obtain ⟨pattern, methods, target⟩ := route
  cases htarget
  cases h
  rfl

theorem target_eq_mount_of_restrictRoute {own : Route η}
    (h : restrictRoute method route = .ok own) (htarget : route.target = .mount child) :
    ∃ left, restrict method child = .ok left ∧ own.target = .mount left := by
  obtain ⟨pattern, methods, target⟩ := route
  cases htarget
  obtain ⟨left, hleft, hown⟩ := bind_eq_ok_iff.1 h
  cases hown
  exact ⟨left, hleft, rfl⟩

/-- What is left of a router that was built can be built. -/
theorem Built.exists_restrict (h : router.Built) (method : Method) :
    ∃ kept, router.restrict method = .ok kept ∧ kept.Built := by
  induction h with
  | @build routes router hbuild _ ih =>
    obtain ⟨rfl, -⟩ := build_eq_ok_iff.1 hbuild
    have hpatterns := exists_build_eq_ok_iff.1 ⟨router, hbuild⟩
    have hown : ∀ route ∈ router.routes.filter fun route => route.allows method,
        ∃ own, restrictRoute method route = .ok own ∧
          ∀ left, own.target = .mount left → left.Built := by
      intro route hroute
      cases htarget : route.target with
      | handler handler =>
        obtain ⟨pattern, methods, target⟩ := route
        cases htarget
        exact ⟨_, rfl, nofun⟩
      | mount child =>
        obtain ⟨left, hleft, hbuilt⟩ := ih route (List.mem_of_mem_filter hroute) child htarget
        obtain ⟨pattern, methods, target⟩ := route
        cases htarget
        refine ⟨⟨pattern, methods, .mount left⟩, bind_eq_ok_iff.2 ⟨left, hleft, rfl⟩, ?_⟩
        rintro _ ⟨⟩
        exact hbuilt
    obtain ⟨own, howns⟩ := exists_forall₂_iff.2 hown
    obtain ⟨kept, hkept⟩ := exists_build_eq_ok_iff.2 (show ∀ route ∈ own, _ by
      intro first hfirst
      obtain ⟨route, hroute, hrestrict, -⟩ := exists_mem_of_forall₂ howns hfirst
      rw [(pattern_eq_of_restrictRoute hrestrict).1]
      exact hpatterns route (List.mem_of_mem_filter hroute))
    obtain ⟨rfl, -⟩ := build_eq_ok_iff.1 hkept
    refine ⟨kept, restrict_eq_ok_iff.2 ⟨howns.imp fun _ _ h => h.1, hkept⟩, .build hkept ?_⟩
    intro route hroute
    obtain ⟨_, -, -, hbuilt⟩ := exists_mem_of_forall₂ howns hroute
    exact hbuilt

/-! ## Matches that are kept -/

/-- The place of a route among those that answer the method. -/
def keptIndex (router : Router η) (method : Method) (index : Nat) : Nat :=
  (router.routes.take index).countP fun route => route.allows method

/-- Routes that are kept stay in order. -/
theorem keptIndex_lt {index later : Nat} (hroute : router.routes[index]? = some route)
    (hallows : route.allows method = true) (hlt : index < later) :
    router.keptIndex method index < router.keptIndex method later := by
  have hnext : router.keptIndex method (index + 1) = router.keptIndex method index + 1 := by
    rw [keptIndex, List.take_add_one, List.countP_append, hroute]
    simp [hallows, keptIndex]
  have hle : router.keptIndex method (index + 1) ≤ router.keptIndex method later :=
    (List.take_sublist_take_left hlt).countP_le
  omega

/-- The match with the place of its route among those that answer the method, if it does. -/
def keptMatch? (router : Router η) (method : Method) (found : Match Nat) : Option (Match Nat) :=
  match router.routes[found.tag]? with
  | none => none
  | some route =>
    if route.allows method then some (found.retag (router.keptIndex method found.tag)) else none

/-- The matches of what is left of a router are those of the routes that are kept. -/
theorem toList_matchesOf_restrict (h : router.Built) (hkept : router.restrict method = .ok kept)
    (path : Text) : (kept.automaton.matchesOf path).toList =
      (router.automaton.matchesOf path).toList.filterMap (router.keptMatch? method) := by
  obtain ⟨hbuild, -⟩ := h
  obtain ⟨hroutes, hkeptBuild⟩ := restrict_eq_ok_iff.1 hkept
  have hpatterns : kept.patterns =
      (router.routes.filter fun route => route.allows method).map Route.pattern :=
    map_eq_of_forall₂ hroutes fun _ _ hroute => (pattern_eq_of_restrictRoute hroute).1
  obtain ⟨rfl, -⟩ := build_eq_ok_iff.1 hbuild
  rw [toList_matchesOf_of_build hbuild, toList_matchesOf_of_build hkeptBuild, hpatterns, patterns,
    List.zipIdx_map, List.zipIdx_map, zipIdx_filter, List.map_map, List.flatMap_map, flatMap_filter,
    List.flatMap_map, List.filterMap_flatMap]
  refine List.flatMap_congr fun entry hentry => ?_
  have hroute : router.routes[entry.2]? = some entry.1 := List.mem_zipIdx_iff_getElem?.1 hentry
  have hkeep : router.keptMatch? method ∘ Match.retag entry.2 = fun found : Match Unit =>
      if entry.1.allows method then some (found.retag (router.keptIndex method entry.2))
      else none := by
    funext found
    rw [Function.comp_apply, keptMatch?]
    simp only [Match.retag, hroute]
  show (if entry.1.allows method then (Automaton.matchesOfPattern entry.1.pattern path).map
      (Match.retag (router.keptIndex method entry.2)) else []) =
    ((Automaton.matchesOfPattern entry.1.pattern path).map (Match.retag entry.2)).filterMap _
  rw [List.filterMap_map, hkeep]
  cases entry.1.allows method with
  | true => simp
  | false => simp

/-- The route of a match that is kept, before and after the deletion. -/
theorem exists_kept_route (hkept : router.restrict method = .ok kept) {index : Nat}
    (hroute : router.routes[index]? = some route) (hallows : route.allows method = true) :
    ∃ own, kept.routes[router.keptIndex method index]? = some own ∧
      restrictRoute method route = .ok own :=
  exists_getElem?_of_forall₂ (restrict_eq_ok_iff.1 hkept).1 (getElem?_filter hroute hallows)

end Router

/-! ## Levels and turns -/

namespace Dispatch

open Router

/-- The second level is of what is left of the router of the first one, and has its matches of the
routes that are kept. -/
structure Mirrors (method : Method) (level kept : Level η) : Prop where
  built : level.router.Built
  restrict : level.router.restrict method = .ok kept.router
  inherited : kept.inherited = level.inherited
  found : kept.found.toList = level.found.toList.filterMap (level.router.keptMatch? method)

variable {method : Method} {level own : Level η} {stack next last image : List (Level η)}
  {event : Event η} {events : List (Event η)}

theorem Mirrors.enter {router kept : Router η} (h : router.Built)
    (hkept : router.restrict method = .ok kept) (path : Text) (inherited : Params) :
    Mirrors method (.enter router path inherited) (.enter kept path inherited) :=
  ⟨h, hkept, rfl, toList_matchesOf_restrict h hkept path⟩

/-- A match that is not kept is not there. -/
theorem Mirrors.of_not_kept {found : Match Nat} {left : Matches Nat} (h : Mirrors method level own)
    (hnext : level.found.next = (some found, left))
    (hnone : level.router.keptMatch? method found = none) :
    Mirrors method { level with found := left } own := by
  refine ⟨h.built, h.restrict, h.inherited, h.found.trans ?_⟩
  rw [Matches.toList_of_next_some hnext, List.filterMap_cons_none hnone]

/-- A match that is kept comes next, under the place of its route among the kept ones. -/
theorem Mirrors.of_kept {found : Match Nat} {left : Matches Nat} {route : Route η}
    (h : Mirrors method level own) (hnext : level.found.next = (some found, left))
    (hroute : level.router.routes[found.tag]? = some route)
    (hallows : route.allows method = true) :
    ∃ behind kept, own.found.next =
        (some ⟨found.params, level.router.keptIndex method found.tag⟩, behind) ∧
      own.router.routes[level.router.keptIndex method found.tag]? = some kept ∧
      restrictRoute method route = .ok kept ∧ kept.allows method = true ∧
      Mirrors method { level with found := left } { own with found := behind } := by
  obtain ⟨kept, hkept, hrestrict⟩ := exists_kept_route h.restrict hroute hallows
  have hown : own.found.toList = ⟨found.params, level.router.keptIndex method found.tag⟩ ::
      left.toList.filterMap (level.router.keptMatch? method) := by
    rw [h.found, Matches.toList_of_next_some hnext]
    simp [keptMatch?, hroute, hallows, Match.retag]
  obtain ⟨behind, hbehind, hleft⟩ := Matches.exists_next_of_toList_eq_cons hown
  refine ⟨behind, kept, hbehind, hkept, hrestrict, ?_, h.built, h.restrict, h.inherited, hleft⟩
  rw [Route.allows, (pattern_eq_of_restrictRoute hrestrict).2]
  exact hallows

/-- The handler that an event gives, with the place of its route among the kept ones. -/
def Event.keptResult? (method : Method) : Event η → Option (RouteMatch η)
  | find router result => some { result with route := router.keptIndex method result.route }
  | _ => none

/-- A turn of a request is a turn of the same request to what is left, or none. -/
theorem Turn.exists_mirrored (h : Turn method stack event next)
    (himage : List.Forall₂ (Mirrors method) stack image) :
    ∃ others behind, Run method image others behind ∧
      List.Forall₂ (Mirrors method) next behind ∧
      others.filterMap Event.result? = (event.keptResult? method).toList := by
  cases h with
  | @leave level outer left hnext =>
    obtain ⟨own, behind, hlevel, houter, rfl⟩ := List.forall₂_cons_left_iff.1 himage
    have hnone : own.found.toList = [] := by
      rw [hlevel.found, Matches.toList_of_next_none hnext, List.filterMap_nil]
    obtain ⟨_, hown⟩ := Matches.exists_next_of_toList_eq_nil hnone
    exact ⟨[.leave], behind, .cons (.leave hown) .nil, houter, rfl⟩
  | @pass level outer found left hnext hpass =>
    obtain ⟨own, behind, hlevel, houter, rfl⟩ := List.forall₂_cons_left_iff.1 himage
    have hnone : level.router.keptMatch? method found = none := by
      rw [keptMatch?]
      cases hroute : level.router.routes[found.tag]? with
      | none => rfl
      | some route => simp [hpass route hroute]
    -- The route is deleted, so the other request stands still in this turn.
    exact ⟨[], own :: behind, .nil, .cons (hlevel.of_not_kept hnext hnone) houter, rfl⟩
  | @find level outer found left route handler hnext hroute hallows htarget =>
    obtain ⟨own, behind, hlevel, houter, rfl⟩ := List.forall₂_cons_left_iff.1 himage
    obtain ⟨_, kept, hown, hkept, hrestrict, hkeptAllows, hleft⟩ :=
      hlevel.of_kept hnext hroute hallows
    have hkeptTarget := target_eq_handler_of_restrictRoute hrestrict htarget
    refine ⟨_, _, .cons (.find hown hkept hkeptAllows hkeptTarget) .nil, .cons hleft houter, ?_⟩
    rw [(pattern_eq_of_restrictRoute hrestrict).1, hlevel.inherited]
    rfl
  | @descend level outer found left route child params hnext hroute hallows htarget hparams =>
    obtain ⟨own, behind, hlevel, houter, rfl⟩ := List.forall₂_cons_left_iff.1 himage
    obtain ⟨_, kept, hown, hkept, hrestrict, hkeptAllows, hleft⟩ :=
      hlevel.of_kept hnext hroute hallows
    obtain ⟨inner, hinner, hkeptTarget⟩ := target_eq_mount_of_restrictRoute hrestrict htarget
    have hchild : child.Built :=
      hlevel.built.of_holds (.mounted .self (List.mem_of_getElem? hroute) htarget)
    rw [← hlevel.inherited] at hparams
    exact ⟨_, _, .cons (.descend hown hkept hkeptAllows hkeptTarget hparams) .nil,
      .cons (.enter hchild hinner _ _) (.cons hleft houter), rfl⟩

/-- A run of a request is a run of the same request to what is left, with other places. -/
theorem Run.exists_mirrored (h : Run method stack events last)
    (himage : List.Forall₂ (Mirrors method) stack image) :
    ∃ others behind, Run method image others behind ∧
      List.Forall₂ (Mirrors method) last behind ∧
      others.filterMap Event.result? = events.filterMap (Event.keptResult? method) := by
  induction h generalizing image with
  | nil => exact ⟨[], image, .nil, himage, rfl⟩
  | @cons stack next last event events hturn _ ih =>
    obtain ⟨first, middle, hfirst, hmiddle, hresult⟩ := hturn.exists_mirrored himage
    obtain ⟨others, behind, hothers, hbehind, hresults⟩ := ih hmiddle
    refine ⟨first ++ others, behind, hfirst.append hothers, hbehind, ?_⟩
    rw [List.filterMap_append, hresult, hresults, List.filterMap_cons]
    cases event.keptResult? method <;> rfl

end Dispatch

namespace Router

open Dispatch

/-- The routes that do not answer a method leave no trace in what it gets. What is left of a router
without them can be built, and it gives the same handlers with the same parameters and patterns, in
the same order; the place of a route is the one that it has among the routes that are kept, which
stay in order. -/
theorem yields_restrict {router : Router η} (h : router.Built) (method : Method) :
    (∀ inner, router.Holds inner → ∀ index later route, inner.routes[index]? = some route →
      route.allows method = true → index < later →
      inner.keptIndex method index < inner.keptIndex method later) ∧
    ∃ kept, router.restrict method = .ok kept ∧ kept.Built ∧ ∀ path,
      (∃ events, (router.dispatch method path).Runs events) ∧
      ∀ events, (router.dispatch method path).Runs events →
        (router.dispatch method path).Yields (events.filterMap Event.result?) ∧
        (kept.dispatch method path).Yields (events.filterMap (Event.keptResult? method)) := by
  constructor
  · intro inner _ index later route hroute hallows hlt
    exact keptIndex_lt hroute hallows hlt
  obtain ⟨kept, hkept, hbuilt⟩ := h.exists_restrict method
  refine ⟨kept, hkept, hbuilt, fun path => ⟨exists_runs _, fun events hruns => ⟨hruns.yields, ?_⟩⟩⟩
  have hrun : Dispatch.Run method [.enter router path .empty] events [] := hruns
  obtain ⟨others, behind, hothers, hbehind, hresults⟩ :=
    hrun.exists_mirrored (.cons (.enter h hkept path .empty) .nil)
  obtain rfl := List.forall₂_nil_left_iff.1 hbehind
  have hyields : (kept.dispatch method path).Runs others := hothers
  rw [← hresults]
  exact hyields.yields

/-- Two routes for one path, the first one not for all methods. -/
def postFirst : List (Route Nat) :=
  [⟨['/', 'b'], [.post], .handler 1⟩, ⟨['/', 'b'], [.get, .post], .handler 2⟩]

/-- A mount behind a route that is not for all methods. -/
def postBeforeMount (inner : Router Nat) : List (Route Nat) :=
  [⟨['/', 'a', '/', 'b'], [.post], .handler 3⟩, .mount [] ['/', 'a'] inner]

/-- A route is deleted beside the mount and one under it, so the places of both routes that lead to
the handler change. -/
theorem yields_restrict_postFirst : ∃ inner router kept : Router Nat,
    build postFirst = .ok inner ∧ build (postBeforeMount inner) = .ok router ∧
    router.restrict .get = .ok kept ∧ kept.routes.length = 1 ∧
    ∃ events, (router.dispatch .get ['/', 'a', '/', 'b']).Runs events ∧
      events.filterMap Event.result? = [⟨2, .empty, 1, ['/', 'b']⟩] ∧
      events.filterMap (Event.keptResult? .get) = [⟨2, .empty, 0, ['/', 'b']⟩] := by
  have hb : pathsOf ['/', 'b'] = .ok [[.fixed ['/', 'b'], .accept ()]] := by decide +kernel
  have hab : pathsOf ['/', 'a', '/', 'b'] = .ok [[.fixed ['/', 'a', '/', 'b'], .accept ()]] := by
    decide +kernel
  have hmount : pathsOf (Route.mountPattern ['/', 'a']) =
      .ok [[.fixed ['/', 'a', '/'], .capture remainderName, .accept ()],
        [.fixed ['/', 'a', '/'], .accept ()], [.fixed ['/', 'a'], .accept ()]] := by
    decide +kernel
  obtain ⟨inner, hinner⟩ := exists_build_eq_ok_iff.2
    (show ∀ route ∈ postFirst, ∃ paths, pathsOf route.pattern = .ok paths by
      simp [postFirst, hb])
  obtain ⟨router, hrouter⟩ := exists_build_eq_ok_iff.2
    (show ∀ route ∈ postBeforeMount inner, ∃ paths, pathsOf route.pattern = .ok paths by
      simp [postBeforeMount, Route.mount, hab, hmount])
  have hinnerBuilt : inner.Built := .build hinner (by simp [postFirst])
  obtain ⟨-, kept, hkept, -, hyields⟩ := yields_restrict
    (.build hrouter (by simp [postBeforeMount, Route.mount, hinnerBuilt])) .get
  obtain ⟨⟨events, hruns⟩, hsame⟩ := hyields ['/', 'a', '/', 'b']
  obtain ⟨hfound, hkeptFound⟩ := hsame events hruns
  have hroutes := (build_eq_ok_iff.1 hrouter).1
  have hinnerRoutes := (build_eq_ok_iff.1 hinner).1
  have hhanded : (Params.ofCaptures [(remainderName, ['b'])]).erase remainderName = .empty := by
    decide +kernel
  have hpath : Level.innerPath (.ofCaptures [(remainderName, ['b'])]) = ['/', 'b'] := by
    decide +kernel
  -- What is left is a mount of what is left of the inner router.
  obtain ⟨hown, hkeptBuild⟩ := restrict_eq_ok_iff.1 hkept
  rw [hroutes] at hown
  obtain ⟨own, _, hmounted, hnone, hkeptRoutes⟩ := List.forall₂_cons_left_iff.1 hown
  obtain rfl := List.forall₂_nil_left_iff.1 hnone
  obtain ⟨left, hleft, hown⟩ := bind_eq_ok_iff.1 hmounted
  obtain rfl := Except.ok.inj hown
  obtain ⟨hinnerOwn, hleftBuild⟩ := restrict_eq_ok_iff.1 hleft
  rw [hinnerRoutes] at hinnerOwn
  obtain ⟨_, _, hhandler, hinnerNone, hleftRoutes⟩ := List.forall₂_cons_left_iff.1 hinnerOwn
  obtain rfl := List.forall₂_nil_left_iff.1 hinnerNone
  cases hhandler
  refine ⟨inner, router, kept, hinner, hrouter, hkept, by rw [hkeptRoutes]; rfl, events, hruns,
    ?_, ?_⟩
  · have hmatches : (router.automaton.matchesOf ['/', 'a', '/', 'b']).toList =
        [⟨.empty, 0⟩, ⟨.ofCaptures [(remainderName, ['b'])], 1⟩] := by
      rw [toList_matchesOf_of_forall₂ hrouter (.cons hab (.cons hmount .nil))]
      decide +kernel
    have hinnerMatches : (inner.automaton.matchesOf ['/', 'b']).toList =
        [⟨.empty, 0⟩, ⟨.empty, 1⟩] := by
      rw [toList_matchesOf_of_forall₂ hinner (.cons hb (.cons hb .nil))]
      decide +kernel
    refine (hfound.unique (yields_dispatch ..)).trans ?_
    simp [handlers, handlersFrom_eq, handlersOf, hmatches, hinnerMatches, hroutes, hinnerRoutes,
      postBeforeMount, postFirst, Route.mount, Route.allows, Params.empty_override, hhanded, hpath]
  · have hmatches : (kept.automaton.matchesOf ['/', 'a', '/', 'b']).toList =
        [⟨.ofCaptures [(remainderName, ['b'])], 0⟩] := by
      rw [hkeptRoutes] at hkeptBuild
      rw [toList_matchesOf_of_forall₂ hkeptBuild (.cons hmount .nil)]
      decide +kernel
    have hleftMatches : (left.automaton.matchesOf ['/', 'b']).toList = [⟨.empty, 0⟩] := by
      rw [hleftRoutes] at hleftBuild
      rw [toList_matchesOf_of_forall₂ hleftBuild (.cons hb .nil)]
      decide +kernel
    refine (hkeptFound.unique (yields_dispatch ..)).trans ?_
    simp [handlers, handlersFrom_eq, handlersOf, hmatches, hleftMatches, hkeptRoutes, hleftRoutes,
      Route.allows, Params.empty_override, hhanded, hpath]

end Router

end RoutePattern
