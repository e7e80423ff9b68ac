import RoutePattern.Json.Numeral

/-!
# The lexemes of a JSON document

A document is cut into brackets, commas, colons, strings and words; a word is any other run of
characters up to white space, a bracket, a comma, a colon or a quote. Only then are words checked
against the grammar of numbers and literals, and the escapes of strings read. What has the right
form but no value becomes a value that is `Json.unreadable`.
-/

namespace RoutePattern.Json

/-- A piece of a document. -/
inductive Lexeme where
  | openArray
  | closeArray
  | openObject
  | closeObject
  | comma
  | colon
  /-- A string, or `none` for one that holds half of a surrogate pair. -/
  | string (value : Option Text)
  /-- A value that is neither a string nor an array nor an object. -/
  | scalar (value : Json)

/-- White space between lexemes. -/
def isBlank (c : Char) : Bool := c == ' ' || c == '\t' || c == '\n' || c == '\r'

/-- The lexemes that are one character. -/
def mark? : Char → Option Lexeme
  | '[' => some .openArray
  | ']' => some .closeArray
  | '\x7b' => some .openObject
  | '\x7d' => some .closeObject
  | ',' => some .comma
  | ':' => some .colon
  | _ => none

/-! ## Strings -/

/-- The value of a hexadecimal digit. -/
def hexDigit? (c : Char) : Option Nat :=
  if c.isDigit then some (c.toNat - '0'.toNat)
  else if 'a' ≤ c && c ≤ 'f' then some (c.toNat - 'a'.toNat + 10)
  else if 'A' ≤ c && c ≤ 'F' then some (c.toNat - 'A'.toNat + 10)
  else none

/-- The 16-bit unit that four hexadecimal digits spell. -/
def unit? (a b c d : Char) : Option Nat := do
  return 4096 * (← hexDigit? a) + 256 * (← hexDigit? b) + 16 * (← hexDigit? c) + (← hexDigit? d)

/-- The character that a `\` and `c` spell. -/
def simpleEscape? : Char → Option Char
  | '"' => some '"'
  | '\\' => some '\\'
  | '/' => some '/'
  | 'b' => some '\x08'
  | 'f' => some '\x0c'
  | 'n' => some '\n'
  | 'r' => some '\r'
  | 't' => some '\t'
  | _ => none

/-- An element of a string: a character, or a 16-bit unit that was spelled by number. -/
inductive Element where
  | char (c : Char)
  | unit (value : Nat)

/-- The elements of what stands between the quotes, or `none` if an escape or a control character
breaks the form of a string. -/
def elements? : Text → Option (List Element)
  | [] => some []
  | '\\' :: 'u' :: a :: b :: c :: d :: rest =>
    match unit? a b c d with
    | some value => (elements? rest).map (.unit value :: ·)
    | none => none
  | '\\' :: c :: rest =>
    match simpleEscape? c with
    | some c => (elements? rest).map (.char c :: ·)
    | none => none
  | c :: rest =>
    if c.toNat < 0x20 || c == '\\' then none else (elements? rest).map (.char c :: ·)

/-- The text of a string: two units that form a surrogate pair are one character, and a unit that
is half of such a pair on its own leaves no text. -/
def textOf? : List Element → Option Text
  | [] => some []
  | .char c :: rest => (textOf? rest).map (c :: ·)
  | .unit high :: .unit low :: rest =>
    if 0xD800 ≤ high && high < 0xDC00 then
      if 0xDC00 ≤ low && low < 0xE000 then
        (textOf? rest).map (Char.ofNat (0x10000 + 0x400 * (high - 0xD800) + (low - 0xDC00)) :: ·)
      else none
    else if 0xDC00 ≤ high && high < 0xE000 then none
    else (textOf? (.unit low :: rest)).map (Char.ofNat high :: ·)
  | .unit value :: rest =>
    if 0xD800 ≤ value && value < 0xE000 then none
    else (textOf? rest).map (Char.ofNat value :: ·)

/-! ## Words -/

/-- The value that a word spells. -/
def word? (literal : Text) : Option Json :=
  if literal == ['n', 'u', 'l', 'l'] then some .null
  else if literal == ['t', 'r', 'u', 'e'] then some (.bool true)
  else if literal == ['f', 'a', 'l', 's', 'e'] then some (.bool false)
  else (numeral? literal).map fun n => if n.isHuge then .unreadable else .number literal

/-! ## The cut -/

/-- What the characters of a document read so far leave open. Characters are kept last first. -/
inductive Pending where
  | nothing
  | word (read : Text)
  /-- A string, and whether its last character is a `\` that escapes the next. -/
  | string (read : Text) (escape : Bool)

/-- The lexeme of a word. -/
def wordLexeme? (read : Text) : Option Lexeme := (word? read.reverse).map .scalar

/-- The lexeme of a string. -/
def stringLexeme? (read : Text) : Option Lexeme :=
  (elements? read.reverse).map fun elements => .string (textOf? elements)

/-- The character `c` when nothing is left open before it. -/
def start (c : Char) : List Lexeme × Pending :=
  if isBlank c then ([], .nothing)
  else if c == '"' then ([], .string [] false)
  else match mark? c with
    | some lexeme => ([lexeme], .nothing)
    | none => ([], .word [c])

/-- Whether a word ends before `c`. -/
def endsWord (c : Char) : Bool := isBlank c || c == '"' || (mark? c).isSome

/-- The lexemes of a document whose first part gave the lexemes `found`, last first, and left
`pending` open. -/
def lexemesFrom? (found : List Lexeme) : Pending → Text → Option (List Lexeme)
  | .nothing, [] => some found.reverse
  | .word read, [] => (wordLexeme? read).map fun lexeme => (lexeme :: found).reverse
  | .string .., [] => none
  | .nothing, c :: rest => lexemesFrom? ((start c).1 ++ found) (start c).2 rest
  | .word read, c :: rest =>
    if endsWord c then
      match wordLexeme? read with
      | some lexeme => lexemesFrom? ((start c).1 ++ lexeme :: found) (start c).2 rest
      | none => none
    else lexemesFrom? found (.word (c :: read)) rest
  | .string read true, c :: rest => lexemesFrom? found (.string (c :: read) false) rest
  | .string read false, c :: rest =>
    if c == '"' then
      match stringLexeme? read with
      | some lexeme => lexemesFrom? (lexeme :: found) .nothing rest
      | none => none
    else lexemesFrom? found (.string (c :: read) (c == '\\')) rest

/-- The lexemes of a document. -/
def lexemes? (document : Text) : Option (List Lexeme) := lexemesFrom? [] .nothing document

end RoutePattern.Json
