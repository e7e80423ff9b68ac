import RoutePattern.Json.Basic

/-!
# Records in JSON

A record with named fields is written as an object, where fields may stand in any order and other
fields are skipped, or as an array of the values in the order of the names. A name that comes
twice is an error.
-/

namespace RoutePattern.Json

/-- The value of a field that must not come twice. -/
def field? (fields : List (Text × Json)) (name : Text) : Option (Option Json) :=
  match fields.filter fun field => field.1 == name with
  | [] => some none
  | [(_, value)] => some (some value)
  | _ => none

/-- The values of the fields of these names; a field that is not there has none. -/
def record? (names : List String) : Json → Option (List (Option Json))
  | object fields => names.mapM fun name => field? fields name.toList
  | array items =>
    if items.length ≤ names.length then
      some (names.zipIdx.map fun (_, index) => items[index]?)
    else none
  | _ => none

/-- The items of an array, each read by `read?`. -/
def list? {α : Type} (read? : Json → Option α) : Json → Option (List α)
  | array items => items.mapM read?
  | _ => none

end RoutePattern.Json
