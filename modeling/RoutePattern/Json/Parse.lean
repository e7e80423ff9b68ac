import RoutePattern.Json.Lexeme

/-!
# Reading a JSON document

`Json.parse?` reads the lexemes of a document from left to right and keeps the containers that
are still open on a stack, so the nesting of a document is bounded only by its length.
-/

namespace RoutePattern.Json

/-- An array or an object that is not closed yet, with its last entry first. -/
inductive Container where
  | array (items : List Json)
  /-- An object, and whether one of its names stands for no text. -/
  | object (fields : List (Text × Json)) (readable : Bool)
  /-- An object in front of the value that belongs to `name`. -/
  | field (fields : List (Text × Json)) (readable : Bool) (name : Option Text)

/-- What may come next in a document. -/
inductive Expected where
  /-- A value. -/
  | value
  /-- A value, or the end of the array just opened. -/
  | firstItem
  /-- The name of a field. -/
  | name
  /-- The name of a field, or the end of the object just opened. -/
  | firstName
  /-- A colon. -/
  | colon
  /-- A comma, or the end of the innermost container. -/
  | next
  /-- The end of the document, whose value is known. -/
  | finish (value : Json)

/-- A value is complete inside the open containers. -/
def complete (value : Json) : List Container → Expected × List Container
  | [] => (.finish value, [])
  | .array items :: outer => (.next, .array (value :: items) :: outer)
  | .object fields readable :: outer => (.next, .object fields readable :: outer)
  | .field fields readable (some name) :: outer =>
    (.next, .object ((name, value) :: fields) readable :: outer)
  | .field fields _ none :: outer => (.next, .object fields false :: outer)

/-- A closed object: one with a name that stands for no text stands for nothing itself. -/
def closedObject (fields : List (Text × Json)) (readable : Bool) : Json :=
  if readable then .object fields.reverse else .unreadable

/-- A value begins with this lexeme. -/
def begin? (lexeme : Lexeme) (containers : List Container) :
    Option (Expected × List Container) :=
  match lexeme with
  | .openArray => some (.firstItem, .array [] :: containers)
  | .openObject => some (.firstName, .object [] true :: containers)
  | .string (some text) => some (complete (.string text) containers)
  | .string none => some (complete .unreadable containers)
  | .scalar value => some (complete value containers)
  | _ => none

/-- What is expected and open after one more lexeme. -/
def read? (expected : Expected) (lexeme : Lexeme) (containers : List Container) :
    Option (Expected × List Container) :=
  match expected, lexeme, containers with
  | .firstItem, .closeArray, .array _ :: outer => some (complete (.array []) outer)
  | .firstItem, lexeme, _ => begin? lexeme containers
  | .value, lexeme, _ => begin? lexeme containers
  | .firstName, .closeObject, .object fields readable :: outer =>
    some (complete (closedObject fields readable) outer)
  | .firstName, .string name, .object fields readable :: outer =>
    some (.colon, .field fields readable name :: outer)
  | .name, .string name, .object fields readable :: outer =>
    some (.colon, .field fields readable name :: outer)
  | .colon, .colon, _ => some (.value, containers)
  | .next, .comma, .array _ :: _ => some (.value, containers)
  | .next, .comma, .object .. :: _ => some (.name, containers)
  | .next, .closeArray, .array items :: outer => some (complete (.array items.reverse) outer)
  | .next, .closeObject, .object fields readable :: outer =>
    some (complete (closedObject fields readable) outer)
  | _, _, _ => none

/-- The value of the document that the lexemes go on with. -/
def readAll? (expected : Expected) (containers : List Container) : List Lexeme → Option Json
  | [] => match expected with
    | .finish value => some value
    | _ => none
  | lexeme :: rest =>
    match read? expected lexeme containers with
    | some (expected, containers) => readAll? expected containers rest
    | none => none

/-- The value of a document, or `none` for a text that is none. -/
def parse? (document : Text) : Option Json := do readAll? .value [] (← lexemes? document)

end RoutePattern.Json
