import RoutePattern.Node.Basic

/-!
# Trees written as patterns

`Node.render` writes a node the way a pattern spells it. A character of a literal that has a
meaning in patterns gets a `\` before it, so that it is read back as itself.
-/

namespace RoutePattern

/-- `c` has a meaning of its own somewhere in a pattern. -/
def isSpecial (c : Char) : Bool :=
  c == '\\' || c == '(' || c == ')' || c == '|' || c == ':' || c == '?'

/-- A character of a literal, with a `\` before it if it is special. -/
def escapedChar (c : Char) : Text := if isSpecial c then ['\\', c] else [c]

/-- A literal text as a pattern spells it. -/
def escaped (t : Text) : Text := t.flatMap escapedChar

/-- The mark behind an optional element. -/
def optionalMark (optional : Bool) : Text := if optional then ['?'] else []

namespace Node

mutual

/-- The node as a pattern spells it. -/
def render : Node → Text
  | literal _ text => escaped text
  | parameter _ name optional => ':' :: name ++ optionalMark optional
  | group _ alternatives optional =>
    '(' :: renderAlternatives alternatives ++ ')' :: optionalMark optional
  | separator _ => ['|']

/-- The nodes of a sequence one after the other. -/
def renderSequence : List Node → Text
  | [] => []
  | node :: rest => render node ++ renderSequence rest

/-- The alternatives of a group with a bar between each two. -/
def renderAlternatives : List (List Node) → Text
  | [] => []
  | [alternative] => renderSequence alternative
  | alternative :: rest => renderSequence alternative ++ '|' :: renderAlternatives rest

end

end Node

end RoutePattern
