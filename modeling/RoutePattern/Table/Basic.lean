import RoutePattern.Router.Basic

/-!
# Route tables as data

A table lists routes by pattern, methods and destination; an action is the handler of its route,
and a mount holds a table of its own. `Table.build` makes a router of it. Nested tables are built
where their route stands, and the patterns of a table when all its routes have been gone through, so
an error inside a nested table comes before an error in a pattern of the table around it.
-/

namespace RoutePattern.Table

mutual

/-- Where an entry leads. `η` is the type of the actions. -/
inductive Destination (η : Type) where
  | action (action : η)
  | mount (entries : List (Entry η))

/-- A route of a table. For a mount, the pattern is the prefix. -/
structure Entry (η : Type) where
  pattern : Text
  /-- The methods that the route answers; all, if there are none here. -/
  methods : List Method
  destination : Destination η

end

variable {η : Type}

mutual

/-- The route of an entry. -/
def buildRoute : Entry η → Except PatternError (Route η)
  | ⟨pattern, methods, .action action⟩ => .ok ⟨pattern, methods, .handler action⟩
  | ⟨pattern, methods, .mount entries⟩ => do
    return .mount methods pattern (← Router.build (← buildRoutes entries))

/-- The routes of the entries. -/
def buildRoutes : List (Entry η) → Except PatternError (List (Route η))
  | [] => .ok []
  | entry :: rest => do
    let route ← buildRoute entry
    let others ← buildRoutes rest
    return route :: others

end

/-- The router of a table, or why the first bad pattern of it is refused. -/
def build (entries : List (Entry η)) : Except PatternError (Router η) := do
  Router.build (← buildRoutes entries)

end RoutePattern.Table
