import RoutePattern.Text.Basic

/-!
# The lexemes of a pattern

`lexemes` cuts a pattern into characters of literals, parameters, brackets and bars, from left
to right, and never fails: a `\` at the end and a `:` without a name are lexemes of their own,
so that the reader of the lexemes meets every offence in the order of the text. A name and the
`?` behind a name or a bracket are as long as they can be.

The cut is one pass over the characters. `Pending` is what the characters so far leave open;
`Pending.step` reads one more. So the lexemes of a text that is put together of two parts are
those of the first part, followed by those of the second part with what the first left open.
-/

namespace RoutePattern

/-- A piece of a pattern. An offset is the number of bytes before the piece. -/
inductive Lexeme where
  /-- A character of a literal, escaped or not. -/
  | char (c : Char)
  /-- `:name`, and whether a `?` follows. -/
  | parameter (name : Text) (optional : Bool)
  /-- `(` -/
  | opening (offset : Nat)
  /-- `)`, and whether a `?` follows. -/
  | closing (offset : Nat) (optional : Bool)
  /-- `|` -/
  | bar (offset : Nat)
  /-- A `\` with nothing after it. -/
  | loneEscape (offset : Nat)
  /-- A `:` with no name after it. -/
  | unnamed (offset : Nat)
deriving Repr, DecidableEq

/-- A name may begin with `c`: an ASCII letter or `_`. -/
def isNameStart (c : Char) : Bool := c.isAlpha || c == '_'

/-- A name may go on with `c`: an ASCII letter or digit or `_`. -/
def isNamePart (c : Char) : Bool := c.isAlphanum || c == '_'

/-- What the characters of a pattern read so far leave open. -/
inductive Pending where
  /-- Every lexeme so far is complete. -/
  | nothing
  /-- A `\` at `offset` waits for the character that it escapes. -/
  | escape (offset : Nat)
  /-- A `)` at `offset` waits for a `?`. -/
  | closing (offset : Nat)
  /-- A `:` at `offset` has the name `read` so far. -/
  | name (offset : Nat) (read : Text)
deriving Repr, DecidableEq

namespace Pending

/-- The lexeme that is left open, as it stands when nothing more belongs to it. -/
def finish : Pending → List Lexeme
  | nothing => []
  | escape offset => [.loneEscape offset]
  | closing offset => [.closing offset false]
  | name offset [] => [.unnamed offset]
  | name _ read => [.parameter read false]

/-- The character `c` at `offset` when nothing is left open before it. -/
def start (offset : Nat) (c : Char) : List Lexeme × Pending :=
  match c with
  | '\\' => ([], escape offset)
  | '(' => ([.opening offset], nothing)
  | ')' => ([], closing offset)
  | '|' => ([.bar offset], nothing)
  | ':' => ([], name offset [])
  | c => ([.char c], nothing)

/-- The open lexeme is complete before the character `c` at `offset`. -/
def close (pending : Pending) (offset : Nat) (c : Char) : List Lexeme × Pending :=
  (pending.finish ++ (start offset c).1, (start offset c).2)

/-- The lexemes that the character `c` at `offset` completes, and what is open after it. -/
def step (pending : Pending) (offset : Nat) (c : Char) : List Lexeme × Pending :=
  match pending with
  | nothing => start offset c
  | escape _ => ([.char c], nothing)
  | closing place => if c = '?' then ([.closing place true], nothing) else pending.close offset c
  | name place [] => if isNameStart c then ([], name place [c]) else pending.close offset c
  | name place (a :: read) =>
    if isNamePart c then ([], name place (a :: read ++ [c]))
    else if c = '?' then ([.parameter (a :: read) true], nothing)
    else pending.close offset c

end Pending

/-- The lexemes of a text that begins at `offset` with `pending` left open before it. -/
def lexemesFrom (pending : Pending) (offset : Nat) : Text → List Lexeme
  | [] => pending.finish
  | c :: rest =>
    (pending.step offset c).1 ++
      lexemesFrom (pending.step offset c).2 (offset + c.utf8Size) rest

/-- The lexemes of a pattern. -/
def lexemes (pattern : Text) : List Lexeme := lexemesFrom .nothing 0 pattern

end RoutePattern
