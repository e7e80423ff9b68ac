import RoutePattern.Text.Basic

/-!
# Request methods

A route may be restricted to some methods of HTTP. Names are upper-case; no other spelling names
a method.
-/

namespace RoutePattern

/-- A method of HTTP. -/
inductive Method where
  | delete
  | get
  | head
  | post
  | put
  | connect
  | options
  | trace
  | patch
deriving Repr, DecidableEq

namespace Method

/-- Every method, in the order of their indices. -/
def all : List Method := [delete, get, head, post, put, connect, options, trace, patch]

/-- The name of a method in a request. -/
def name : Method → String
  | delete => "DELETE"
  | get => "GET"
  | head => "HEAD"
  | post => "POST"
  | put => "PUT"
  | connect => "CONNECT"
  | options => "OPTIONS"
  | trace => "TRACE"
  | patch => "PATCH"

/-- The name of a method as an ordinary word. -/
def word : Method → String
  | delete => "Delete"
  | get => "Get"
  | head => "Head"
  | post => "Post"
  | put => "Put"
  | connect => "Connect"
  | options => "Options"
  | trace => "Trace"
  | patch => "Patch"

/-- The place of a method in `all`. -/
def index (method : Method) : Nat := all.idxOf method

/-- The method of that name. -/
def ofName? (name : Text) : Option Method := all.find? fun method => method.name.toList == name

end Method

/-- The sentence shown for a name that no method has. -/
def unknownMethodMessage (name : Text) : String :=
  "unknown HTTP method \"" ++ String.ofList name ++ "\""

end RoutePattern
