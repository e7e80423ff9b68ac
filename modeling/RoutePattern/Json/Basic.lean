import RoutePattern.Text.Basic

/-!
# JSON values

A value as a document spells it: a number keeps its digits and an object keeps its fields in
order, repeated names included. A piece of a document that has the form of a value but stands for
none (a string with half of a surrogate pair, a number beyond the range of a double) is
`Json.unreadable`: whoever needs the value fails on it, whoever skips it does not.
-/

namespace RoutePattern

/-- A JSON value. -/
inductive Json where
  | null
  | bool (value : Bool)
  /-- A number, by the characters that spell it. -/
  | number (literal : Text)
  | string (value : Text)
  | array (items : List Json)
  /-- An object, by its fields in the order of the document. -/
  | object (fields : List (Text × Json))
  /-- Something with the form of a value that stands for none. -/
  | unreadable

namespace Json

instance : Inhabited Json := ⟨null⟩

/-- The number `n`. -/
def ofNat (n : Nat) : Json := number (Text.ofNat n)

/-- The value of a decimal digit. -/
def digitValue (digit : Char) : Nat := digit.toNat - '0'.toNat

/-- The natural number that a run of decimal digits spells. -/
def digitsValue (digits : Text) : Nat :=
  digits.foldl (fun value digit => 10 * value + digitValue digit) 0

/-- The numbers below this one fit in 64 bits. -/
def wordLimit : Nat := Nat.pow 2 64

/-- The value of a number that is spelled with digits only and fits in 64 bits. -/
def nat? : Json → Option Nat
  | number literal =>
    if literal.all Char.isDigit && digitsValue literal < wordLimit then some (digitsValue literal)
    else none
  | _ => none

/-- The text of a string. -/
def text? : Json → Option Text
  | string value => some value
  | _ => none

/-- The items of an array. -/
def items? : Json → Option (List Json)
  | array items => some items
  | _ => none

/-- The fields of an object. -/
def fields? : Json → Option (List (Text × Json))
  | object fields => some fields
  | _ => none

/-- The value of the last field of that name. -/
def get? (name : Text) (fields : List (Text × Json)) : Option Json :=
  (fields.reverse.find? fun field => field.1 == name).map Prod.snd

mutual

/-- How many arrays and objects lie inside each other at the deepest place. -/
def nesting : Json → Nat
  | array items => 1 + nestingItems items
  | object fields => 1 + nestingFields fields
  | _ => 0

/-- The greatest nesting of the items. -/
def nestingItems : List Json → Nat
  | [] => 0
  | item :: rest => max (nesting item) (nestingItems rest)

/-- The greatest nesting of the values of the fields. -/
def nestingFields : List (Text × Json) → Nat
  | [] => 0
  | (_, value) :: rest => max (nesting value) (nestingFields rest)

end

mutual

/-- Whether every part of the value stands for something. -/
def isReadable : Json → Bool
  | array items => areReadable items
  | object fields => fieldsReadable fields
  | unreadable => false
  | _ => true

/-- Whether every item is readable. -/
def areReadable : List Json → Bool
  | [] => true
  | item :: rest => isReadable item && areReadable rest

/-- Whether the value of every field is readable. -/
def fieldsReadable : List (Text × Json) → Bool
  | [] => true
  | (_, value) :: rest => isReadable value && fieldsReadable rest

end

end Json

end RoutePattern
