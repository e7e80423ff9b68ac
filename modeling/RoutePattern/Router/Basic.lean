import RoutePattern.Automaton.Matches
import RoutePattern.Automaton.Patterns
import RoutePattern.Method

/-!
# Route tables

A router is a table of routes in priority order, with the automaton of their patterns; the tag of
a pattern is the place of its route. A route leads to a handler or mounts another router, so
routers nest.

Routes are collected first and compiled together by `Router.build`. A mount is registered under a
pattern: the texts that it matches, and each of them followed by a slash and anything.
-/

namespace RoutePattern

mutual

/-- Where a route leads. `η` is the type of the handlers. -/
inductive Target (η : Type) where
  | handler (handler : η)
  /-- Another router decides, by what follows the prefix. -/
  | mount (router : Router η)

/-- A registered route. -/
structure Route (η : Type) where
  pattern : Text
  /-- The methods that the route answers; all, if there are none here. -/
  methods : List Method
  target : Target η

/-- Routes with the automaton of their patterns. -/
structure Router (η : Type) where
  routes : List (Route η)
  automaton : Automaton Nat

end

variable {η : Type}

namespace Route

/-- Whether the route answers a method. -/
def allows (route : Route η) (method : Method) : Bool :=
  route.methods.isEmpty || route.methods.contains method

/-- The pattern under which a router is mounted: the prefix without the slashes at its end, and
then nothing, a slash, or a slash and the rest of the path. -/
def mountPattern (pathPrefix : Text) : Text :=
  pathPrefix.dropTrailing '/' ++ ['(', '/', '(', ':', '_', ')', '?', ')', '?']

/-- The pattern that matches every path and records it, unless it is empty. -/
def anyPath : Text := ['(', ':', '_', ')', '?']

/-- A route that mounts a router. -/
def mount (methods : List Method) (pathPrefix : Text) (router : Router η) : Route η :=
  ⟨mountPattern pathPrefix, methods, .mount router⟩

/-- A route whose handler sees every request. -/
def middleware (handler : η) : Route η := ⟨anyPath, [], .handler handler⟩

end Route

namespace Router

/-- The router of the routes, or why the first bad pattern is refused. -/
def build (routes : List (Route η)) : Except PatternError (Router η) := do
  let automaton ← Automaton.ofPatterns (routes.zipIdx.map fun (route, index) => (route.pattern, index))
  return ⟨routes, automaton⟩

/-- The patterns of the routes in priority order. -/
def patterns (router : Router η) : List Text := router.routes.map Route.pattern

/-- Whether some route records the rest of the path. -/
def hasRemainder (router : Router η) : Bool := router.automaton.hasRemainder

/-- A mounted router is smaller than the router that it is mounted in. -/
theorem sizeOf_mounted_lt {router child : Router η} {route : Route η} {index : Nat}
    (h : router.routes[index]? = some route) (ht : route.target = .mount child) :
    sizeOf child < sizeOf router := by
  have hmem := List.sizeOf_lt_of_mem (List.mem_of_getElem? h)
  cases router
  cases route
  simp only at ht hmem
  subst ht
  simp only [Router.mk.sizeOf_spec, Route.mk.sizeOf_spec, Target.mount.sizeOf_spec] at *
  omega

end Router

end RoutePattern
