import Mathlib.Data.List.DropRight
import RoutePattern.Proofs.Router.Dispatch
import RoutePattern.Table.Basic

/-!
# What becomes of a table

A table is built from the inside: the tables mounted in it are built one after the other, and its
own patterns come last. `Table.patterns` lists all patterns in this order. A table fails as the list
of its patterns does, each read on its own (`failsAs_build`): it is refused for the first of them
that is refused, and otherwise it makes a router with one route for each entry, at every depth
(`build_outcomes`).
-/

namespace RoutePattern

variable {η : Type}

/-- Many patterns fail as the list of them does, each on its own. -/
theorem Automaton.failsAs_ofPatterns {τ : Type} (patterns : List (Text × τ)) :
    FailsAs (ofPatterns patterns) ((patterns.map Prod.fst).mapM pathsOf) := by
  rw [ofPatterns, ← bind_pure ((patterns.map Prod.fst).mapM pathsOf)]
  refine .bind (.mapM (fun _ _ => taggedPathsOf_eq_error_iff) patterns) fun pools paths hok _ => ?_
  rw [ofPaths_of_isReady (isReady_of_mem_flatten (mapM_eq_ok_iff.1 hok))]
  exact .pure _ _

theorem Router.failsAs_build (routes : List (Route η)) :
    FailsAs (build routes) ((routes.map Route.pattern).mapM pathsOf) := by
  have hpatterns : (routes.zipIdx.map (Prod.map Route.pattern id)).map Prod.fst =
      routes.map Route.pattern := by
    rw [← List.zipIdx_map, List.zipIdx_map_fst]
  rw [build, ← bind_pure ((routes.map Route.pattern).mapM pathsOf), ← hpatterns]
  exact (Automaton.failsAs_ofPatterns _).bind fun _ _ _ _ => .pure _ _

namespace Table

/-- The pattern that the route of an entry gets: for a mount, its prefix without the slashes at the
end, and the suffix `(/(:_)?)?`. -/
def Entry.routePattern : Entry η → Text
  | ⟨pattern, _, .action _⟩ => pattern
  | ⟨pattern, _, .mount _⟩ =>
    pattern.rdropWhile (· == '/') ++ ['(', '/', '(', ':', '_', ')', '?', ')', '?']

mutual

/-- The patterns of the table that an entry mounts, in the order in which they are built. -/
def patternsInside : Entry η → List Text
  | ⟨_, _, .action _⟩ => []
  | ⟨_, _, .mount entries⟩ => patternsInsideAll entries ++ entries.map Entry.routePattern

/-- The patterns of the tables that the entries mount, one entry after the other. -/
def patternsInsideAll : List (Entry η) → List Text
  | [] => []
  | entry :: rest => patternsInside entry ++ patternsInsideAll rest

end

/-- The patterns of a table in the order in which they are built: those of the tables mounted in
it, then its own. -/
def patterns (entries : List (Entry η)) : List Text :=
  patternsInsideAll entries ++ entries.map Entry.routePattern

/-- The route stands for the entry. A mounted router was built of routes that stand for the entries
of the mounted table, one for each in order. -/
inductive IsRouteOf : Entry η → Route η → Prop
  | action {pattern : Text} {methods : List Method} {action : η} :
      IsRouteOf ⟨pattern, methods, .action action⟩ ⟨pattern, methods, .handler action⟩
  | mount {pattern : Text} {methods : List Method} {entries : List (Entry η)} {router : Router η}
      (hroutes : List.Forall₂ IsRouteOf entries router.routes)
      (hbuild : Router.build router.routes = .ok router) :
      IsRouteOf ⟨pattern, methods, .mount entries⟩
        ⟨Entry.routePattern ⟨pattern, methods, .mount entries⟩, methods, .mount router⟩

theorem IsRouteOf.pattern {entry : Entry η} {route : Route η} (h : IsRouteOf entry route) :
    route.pattern = entry.routePattern := by
  cases h <;> rfl

theorem map_pattern_of_forall₂ {entries : List (Entry η)} {routes : List (Route η)}
    (h : List.Forall₂ IsRouteOf entries routes) :
    routes.map Route.pattern = entries.map Entry.routePattern :=
  map_eq_of_forall₂ h fun _ _ hroute => hroute.pattern

/-! ## The routes of a table -/

mutual

theorem isRouteOf_of_buildRoute : {entry : Entry η} → {route : Route η} →
    buildRoute entry = .ok route → IsRouteOf entry route
  | ⟨pattern, methods, .action action⟩, route, h => by
    obtain rfl := Except.ok.inj h
    exact .action
  | ⟨pattern, methods, .mount entries⟩, route, h => by
    simp only [buildRoute, bind_eq_ok_iff, pure_eq_ok_iff] at h
    obtain ⟨routes, hroutes, router, hbuild, rfl⟩ := h
    obtain ⟨rfl, -⟩ := Router.build_eq_ok_iff.1 hbuild
    exact .mount (forall₂_of_buildRoutes hroutes) hbuild

theorem forall₂_of_buildRoutes : {entries : List (Entry η)} → {routes : List (Route η)} →
    buildRoutes entries = .ok routes → List.Forall₂ IsRouteOf entries routes
  | [], routes, h => by
    obtain rfl := Except.ok.inj h
    exact .nil
  | entry :: rest, routes, h => by
    simp only [buildRoutes, bind_eq_ok_iff, pure_eq_ok_iff] at h
    obtain ⟨route, hroute, others, hothers, rfl⟩ := h
    exact .cons (isRouteOf_of_buildRoute hroute) (forall₂_of_buildRoutes hothers)

end

/-- A router that is built of a table has one route for each entry, at every depth. -/
theorem forall₂_of_build {entries : List (Entry η)} {router : Router η}
    (h : build entries = .ok router) :
    List.Forall₂ IsRouteOf entries router.routes ∧ Router.build router.routes = .ok router := by
  obtain ⟨routes, hroutes, hbuild⟩ := bind_eq_ok_iff.1 h
  obtain ⟨rfl, -⟩ := Router.build_eq_ok_iff.1 hbuild
  exact ⟨forall₂_of_buildRoutes hroutes, hbuild⟩

/-! ## The first pattern that is refused -/

mutual

theorem failsAs_buildRoute : (entry : Entry η) →
    FailsAs (buildRoute entry) ((patternsInside entry).mapM pathsOf)
  | ⟨_, _, .action _⟩ => .pure _ _
  | ⟨pattern, methods, .mount entries⟩ => by
    rw [buildRoute, patternsInside, List.mapM_append]
    refine (failsAs_buildRoutes entries).bind fun routes _ hroutes _ => ?_
    rw [← map_pattern_of_forall₂ (forall₂_of_buildRoutes hroutes)]
    exact (Router.failsAs_build routes).bind fun _ _ _ _ => .pure _ _

theorem failsAs_buildRoutes : (entries : List (Entry η)) →
    FailsAs (buildRoutes entries) ((patternsInsideAll entries).mapM pathsOf)
  | [] => .pure _ _
  | entry :: rest => by
    rw [buildRoutes, patternsInsideAll, List.mapM_append]
    refine (failsAs_buildRoute entry).bind fun _ _ _ _ => ?_
    exact (failsAs_buildRoutes rest).bind fun _ _ _ _ => .pure _ _

end

/-- A table fails as the list of its patterns does. -/
theorem failsAs_build (entries : List (Entry η)) :
    FailsAs (build entries) ((patterns entries).mapM pathsOf) := by
  rw [build, patterns, List.mapM_append, ← bind_pure (buildRoutes entries >>= Router.build),
    bind_assoc]
  refine (failsAs_buildRoutes entries).bind fun routes _ hroutes _ => ?_
  rw [← map_pattern_of_forall₂ (forall₂_of_buildRoutes hroutes)]
  exact (Router.failsAs_build routes).bind fun _ _ _ _ => .pure _ _

/-- What becomes of a table: it makes a router if each of its patterns is accepted on its own, and
otherwise it is refused as the first of them is that is not. The router has one route for each
entry, at every depth. -/
theorem build_outcomes (entries : List (Entry η)) :
    ((∃ router, build entries = .ok router) ↔
      ∀ pattern ∈ patterns entries, ∃ automaton, Automaton.ofPattern pattern = .ok automaton) ∧
    (∀ e, build entries = .error e ↔
      ∃ before pattern after, patterns entries = before ++ pattern :: after ∧
        (∀ earlier ∈ before, ∃ automaton, Automaton.ofPattern earlier = .ok automaton) ∧
        Automaton.ofPattern pattern = .error e) ∧
    ∀ router, build entries = .ok router →
      List.Forall₂ IsRouteOf entries router.routes ∧ Router.build router.routes = .ok router := by
  refine ⟨?_, ?_, fun router h => forall₂_of_build h⟩
  · simp only [(failsAs_build entries).exists_eq_ok_iff, mapM_eq_ok_iff, exists_forall₂_iff,
      Automaton.exists_ofPattern_eq_ok_iff]
  · intro e
    simp only [failsAs_build entries e, mapM_eq_error_iff, Automaton.exists_ofPattern_eq_ok_iff,
      Automaton.ofPattern_eq_error_iff]

/-- A bad pattern, and a mount behind it of a table with another one. -/
def lateEntries : List (Entry Nat) :=
  [⟨[':'], [], .action 1⟩, ⟨['/', 'a'], [], .mount [⟨['('], [], .action 2⟩]⟩]

/-- A mount with slashes at its end, for one method, and an action behind it. -/
def nestedEntries : List (Entry Nat) :=
  [⟨['/', 'a', '/', '/'], [.get], .mount [⟨['/', ':', 'x'], [], .action 1⟩]⟩,
    ⟨['/', 'b'], [], .action 2⟩]

/-- The pattern inside the mount is refused, although a bad one stands before it. -/
theorem build_lateEntries :
    build lateEntries = .error (.misspelled ['('] 0 .unmatchedParenthesis) ∧
      ∃ router inner, build nestedEntries = .ok router ∧
        router.routes =
          [⟨['/', 'a', '(', '/', '(', ':', '_', ')', '?', ')', '?'], [.get], .mount inner⟩,
            ⟨['/', 'b'], [], .handler 2⟩] ∧
        inner.routes = [⟨['/', ':', 'x'], [], .handler 1⟩] := by
  have hx : pathsOf ['/', ':', 'x'] = .ok [[.fixed ['/'], .capture ['x'], .accept ()]] := by
    decide +kernel
  have hmount : pathsOf ['/', 'a', '(', '/', '(', ':', '_', ')', '?', ')', '?'] =
      .ok [[.fixed ['/', 'a', '/'], .capture remainderName, .accept ()],
        [.fixed ['/', 'a', '/'], .accept ()], [.fixed ['/', 'a'], .accept ()]] := by
    decide +kernel
  have hb : pathsOf ['/', 'b'] = .ok [[.fixed ['/', 'b'], .accept ()]] := by decide +kernel
  obtain ⟨hok, -, hroutes⟩ := build_outcomes nestedEntries
  have hpatterns : patterns nestedEntries =
      [['/', ':', 'x'], ['/', 'a', '(', '/', '(', ':', '_', ')', '?', ')', '?'], ['/', 'b']] := rfl
  obtain ⟨router, hrouter⟩ := hok.2 (by
    simp [hpatterns, Automaton.exists_ofPattern_eq_ok_iff, hx, hmount, hb])
  refine ⟨?_, router, ?_⟩
  · refine ((build_outcomes lateEntries).2.1 _).2 ⟨[], ['('], _, rfl, by simp, ?_⟩
    exact Automaton.ofPattern_eq_error_iff.2 rfl
  · have hown := (hroutes router hrouter).1
    rcases router with ⟨routes, automaton⟩
    obtain ⟨first, _, hfirst, hothers, rfl⟩ := List.forall₂_cons_left_iff.1 hown
    obtain ⟨second, _, hsecond, hnone, rfl⟩ := List.forall₂_cons_left_iff.1 hothers
    obtain rfl := List.forall₂_nil_left_iff.1 hnone
    cases hsecond
    cases hfirst with
    | @mount _ _ _ inner hinner _ =>
      obtain ⟨route, rest, hroute, hrest, hsame⟩ := List.forall₂_cons_left_iff.1 hinner
      obtain rfl := List.forall₂_nil_left_iff.1 hrest
      cases hroute
      exact ⟨inner, hrouter, rfl, hsame⟩

end Table

end RoutePattern
