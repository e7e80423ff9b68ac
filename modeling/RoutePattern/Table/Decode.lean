import RoutePattern.Json.Parse
import RoutePattern.Json.Record
import RoutePattern.Table.Basic

/-!
# Route tables in JSON

A table is a record with the field `routes`, a list of records with the fields `pattern`,
`methods`, which may be left out, and `target`. A target is an object with a field `type`, which
is `action` or `mount`, and a field `action` or `routes` for it, or an array of these two values.

A target is taken in as a whole before it is read: every part of it has to be readable, also a
field that is skipped, and it must not be nested too deep. What is read from a target taken in
this way, so every entry of a nested table, has two more spellings: a type may be given by its
place, 0 or 1, and the value behind the name of a method may be an empty object.
-/

namespace RoutePattern.Table

/-- How deep a document may be nested where it is read. -/
def nestingLimit : Nat := 127

/-- A method: its name, or an object with its name before `null`. -/
def method? (inside : Bool) : Json → Option Method
  | .string name => Method.ofName? name
  | .object [(name, .null)] => Method.ofName? name
  | .object [(name, .object [])] => if inside then Method.ofName? name else none
  | _ => none

/-- The methods of an entry. -/
def methods? (inside : Bool) : Option Json → Option (List Method)
  | none => some []
  | some methods => Json.list? (method? inside) methods

/-- The types of destinations. -/
inductive DestinationType where
  | action
  | mount
deriving Repr, DecidableEq

/-- The type of a destination. -/
def type? (inside : Bool) : Json → Option DestinationType
  | .string name =>
    if name = "action".toList then some .action
    else if name = "mount".toList then some .mount
    else none
  | .number literal =>
    if !inside then none
    else match Json.nat? (.number literal) with
      | some 0 => some .action
      | some 1 => some .mount
      | _ => none
  | _ => none

/-- The type of a destination and the value that belongs to it. -/
def typed? (inside : Bool) (target : Json) : Option (DestinationType × Json) := do
  let name : DestinationType → String
    | .action => "action"
    | .mount => "routes"
  match target with
  | .object fields =>
    let type ← type? inside (← (← Json.field? fields "type".toList))
    return (type, ← (← Json.field? fields (name type).toList))
  | .array [type, value] => return (← type? inside type, value)
  | _ => none

/-- The entry that a record spells, its target read by `destination?`. -/
def entryWith? (inside : Bool) (destination? : Json → Option (Destination Text)) (record : Json) :
    Option (Entry Text) := do
  match ← record.record? ["pattern", "methods", "target"] with
  | [some pattern, methods, some target] =>
    return ⟨← pattern.text?, ← methods? inside methods, ← destination? target⟩
  | _ => none

/-- The destination that `target` spells; `room` bounds how deep mounts may lie inside it. -/
def destination? :
    (room : Nat) → (inside : Bool) → (target : Json) → Option (Destination Text)
  | 0, _, _ => none
  | room + 1, inside, target => do
    match ← typed? inside target with
    | (.action, name) => return .action (← name.text?)
    | (.mount, entries) =>
      return .mount (← Json.list? (entryWith? true (destination? room true)) entries)

/-- Whether a target may be taken in: the table, its routes and the record of the entry lie around
it. -/
def admits (target : Json) : Bool := target.isReadable && target.nesting + 3 ≤ nestingLimit

/-- The destination of an entry of the outermost table. -/
def outerDestination? (target : Json) : Option (Destination Text) :=
  if admits target then destination? (target.nesting + 1) false target else none

/-- The entries of a list of routes. -/
def entries? (routes : Json) : Option (List (Entry Text)) :=
  Json.list? (entryWith? false outerDestination?) routes

/-- The entries of a table. -/
def ofJson? (table : Json) : Option (List (Entry Text)) := do
  match ← table.record? ["routes"] with
  | [some routes] => entries? routes
  | _ => none

/-- The entries of a table that a document holds. -/
def parse? (document : Text) : Option (List (Entry Text)) := do ofJson? (← Json.parse? document)

end RoutePattern.Table
