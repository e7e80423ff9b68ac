import RoutePattern.Json.Basic

/-!
# JSON values written as documents

No white space is written. In a string only the quote, the `\` and the control characters below
the space are escaped, the latter by name where there is one.
-/

namespace RoutePattern.Json

/-- A digit of a hexadecimal number below 16, in lower case. -/
def hexDigit (n : Nat) : Char := Nat.digitChar n

/-- A character of a string. -/
def stringChar (c : Char) : Text :=
  match c with
  | '"' => ['\\', '"']
  | '\\' => ['\\', '\\']
  | '\x08' => ['\\', 'b']
  | '\x0c' => ['\\', 'f']
  | '\n' => ['\\', 'n']
  | '\r' => ['\\', 'r']
  | '\t' => ['\\', 't']
  | c =>
    if c.toNat < 0x20 then ['\\', 'u', '0', '0', hexDigit (c.toNat / 16), hexDigit (c.toNat % 16)]
    else [c]

/-- A string. -/
def renderString (t : Text) : Text := '"' :: t.flatMap stringChar ++ ['"']

mutual

/-- A value, in front of `rest`. -/
def renderOnto (rest : Text) : Json → Text
  | null => 'n' :: 'u' :: 'l' :: 'l' :: rest
  | bool true => 't' :: 'r' :: 'u' :: 'e' :: rest
  | bool false => 'f' :: 'a' :: 'l' :: 's' :: 'e' :: rest
  | number literal => literal ++ rest
  | string value => renderString value ++ rest
  | array items => '[' :: renderItems (']' :: rest) items
  | object fields => '\x7b' :: renderFields ('\x7d' :: rest) fields
  | unreadable => 'n' :: 'u' :: 'l' :: 'l' :: rest

/-- The items of an array with a comma between each two, in front of `rest`. -/
def renderItems (rest : Text) : List Json → Text
  | [] => rest
  | [item] => renderOnto rest item
  | item :: items => renderOnto (',' :: renderItems rest items) item

/-- The fields of an object with a comma between each two, in front of `rest`. -/
def renderFields (rest : Text) : List (Text × Json) → Text
  | [] => rest
  | [(name, value)] => renderString name ++ ':' :: renderOnto rest value
  | (name, value) :: fields =>
    renderString name ++ ':' :: renderOnto (',' :: renderFields rest fields) value

end

/-- The document of a value. -/
def render (value : Json) : Text := renderOnto [] value

end RoutePattern.Json
