import RoutePattern.Router.Basic

/-!
# Dispatch

A request is dispatched by the matches of its path, in order. A match of a route for other methods
is passed over; one of a handler is found; one of a mount descends into the mounted router with
what the match has captured. `Level` is the enumeration of the matches of one router, and a
dispatch is the chain of levels from the router of the request down to the one searched last.

A level stays when its last match has been found; it is left when the next request finds no more
on it.
-/

namespace RoutePattern

variable {η : Type}

/-- A handler for a request. -/
structure RouteMatch (η : Type) where
  handler : η
  /-- The captures of the match and of the mounts that led to it. -/
  params : Params
  /-- The place of the route in its router. -/
  route : Nat
  /-- The pattern of the route. -/
  pattern : Text

/-- The matches of one router, as far as they have been looked at. -/
structure Level (η : Type) where
  router : Router η
  found : Matches Nat
  /-- The captures of the mounts that lead here, without the rest of the path. -/
  inherited : Params

namespace Level

/-- The level of a router for a path, before its first match. -/
def enter (router : Router η) (path : Text) (inherited : Params) : Level η :=
  ⟨router, router.automaton.matchesOf path, inherited⟩

/-- The path that a mounted router sees: a slash and the rest of the path that the mount has
recorded, or only a slash. -/
def innerPath (params : Params) : Text := '/' :: (params.get? remainderName).getD []

/-- The level of a mounted router that a match with these captures leads to. -/
def descend (router : Router η) (params : Params) : Level η :=
  enter router (innerPath params) (params.erase remainderName)

/-- The first handler from a level on, and the chain of levels at which it is found, the level
itself first. Without a handler the chain is empty. -/
def advance (method : Method) (level : Level η) : Option (RouteMatch η) × List (Level η) :=
  match _h : level.found.next with
  | (none, _) => (none, [])
  | (some found, left) =>
    let next : Level η := { level with found := left }
    match _hroute : level.router.routes[found.tag]? with
    | none => next.advance method
    | some route =>
      if route.allows method then
        let params := level.inherited.override found.params
        match _htarget : route.target with
        | .handler handler => (some ⟨handler, params, found.tag, route.pattern⟩, [next])
        | .mount child =>
          match (descend child params).advance method with
          | (some result, inner) => (some result, next :: inner)
          | (none, _) => next.advance method
      else next.advance method
termination_by (sizeOf level.router, level.found.remaining)
decreasing_by
  · exact Prod.Lex.right _ (Matches.remaining_next_lt _h)
  · exact Prod.Lex.left _ _ (Router.sizeOf_mounted_lt _hroute _htarget)
  · exact Prod.Lex.right _ (Matches.remaining_next_lt _h)
  · exact Prod.Lex.right _ (Matches.remaining_next_lt _h)

/-- The next handler at a chain of levels, and the chain behind it: the innermost level that has
one more gives it. -/
def advanceAll (method : Method) : List (Level η) → Option (RouteMatch η) × List (Level η)
  | [] => (none, [])
  | level :: inner =>
    match advanceAll method inner with
    | (some result, inner) => (some result, level :: inner)
    | (none, _) => level.advance method

end Level

/-- A request under way. -/
structure Dispatch (η : Type) where
  method : Method
  /-- From the router of the request to the one searched last; empty when all is found. -/
  levels : List (Level η)

namespace Router

/-- The request of `method` for `path`, before its first handler. -/
def dispatch (router : Router η) (method : Method) (path : Text) : Dispatch η :=
  ⟨method, [.enter router path .empty]⟩

end Router

namespace Dispatch

/-- The next handler, and the request behind it. -/
def next (dispatch : Dispatch η) : Option (RouteMatch η) × Dispatch η :=
  match Level.advanceAll dispatch.method dispatch.levels with
  | (result, levels) => (result, ⟨dispatch.method, levels⟩)

/-- The next `count` handlers, or fewer if there are no more. -/
def take (dispatch : Dispatch η) : (count : Nat) → List (RouteMatch η)
  | 0 => []
  | count + 1 =>
    match dispatch.next with
    | (some first, left) => first :: left.take count
    | (none, _) => []

/-- A request as it is shown: its method and how many levels it is deep. -/
def display (dispatch : Dispatch η) : String :=
  "Dispatch \x7b method: " ++ dispatch.method.word ++ ", depth: " ++
    dispatch.levels.length.repr ++ " \x7d"

end Dispatch

end RoutePattern
