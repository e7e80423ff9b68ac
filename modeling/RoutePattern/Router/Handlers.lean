import RoutePattern.Router.Dispatch

/-!
# All handlers for a request

`Router.handlers` reads a route table from top to bottom: each match of the path contributes its
handler or, at a mount, the handlers of the mounted router, in place. It lists what
`Router.dispatch` gives one by one.
-/

namespace RoutePattern.Router

variable {η : Type}

/-- The handlers for `method` and `path`, with captures that are inherited from the mounts around
the router. -/
def handlersFrom (router : Router η) (method : Method) (path : Text) (inherited : Params) :
    List (RouteMatch η) :=
  (router.automaton.matchesOf path).toList.flatMap fun found =>
    match _hroute : router.routes[found.tag]? with
    | none => []
    | some route =>
      if route.allows method then
        let params := inherited.override found.params
        match _htarget : route.target with
        | .handler handler => [⟨handler, params, found.tag, route.pattern⟩]
        | .mount child =>
          child.handlersFrom method (Level.innerPath params) (params.erase remainderName)
      else []
termination_by sizeOf router
decreasing_by exact sizeOf_mounted_lt _hroute _htarget

/-- The handlers for `method` and `path` in priority order. -/
def handlers (router : Router η) (method : Method) (path : Text) : List (RouteMatch η) :=
  router.handlersFrom method path .empty

end RoutePattern.Router
