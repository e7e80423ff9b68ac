import RoutePattern.Text.Basic
import RoutePattern.Text.Unprintable

/-!
# Quoted texts

`Text.quoted` writes a text between double quotes so that it is told apart from its
surroundings: a quote and a `\` get a `\` before them, tab, carriage return, line feed and NUL
have names, and any other character that a reader would not see is written `\u{…}` with its
code point in hexadecimal. An apostrophe stands as it is.
-/

namespace RoutePattern.Text

/-- The hexadecimal digits of `n`, in lower case and without leading zeros. -/
def hexDigits (n : Nat) : Text := Nat.toDigits 16 n

/-- One character of a quoted text. -/
def quotedChar (c : Char) : Text :=
  match c with
  | '\x00' => ['\\', '0']
  | '\t' => ['\\', 't']
  | '\r' => ['\\', 'r']
  | '\n' => ['\\', 'n']
  | '"' => ['\\', '"']
  | '\\' => ['\\', '\\']
  | c => if isUnprintable c then ['\\', 'u', '\x7b'] ++ hexDigits c.toNat ++ ['\x7d'] else [c]

/-- `t` between double quotes. -/
def quoted (t : Text) : Text := '"' :: t.flatMap quotedChar ++ ['"']

end RoutePattern.Text
