import RoutePattern.Error
import RoutePattern.Node.Basic
import RoutePattern.Node.Lexeme

/-!
# Reading a pattern

`parse` reads the lexemes of a pattern from left to right into a `Draft`: the sequence under way
and, for every group still open, what came before it. A node gets the next free id when its first
character is read. An alternative without nodes is filled with an empty literal when its group is
closed, and so is a pattern without nodes at its end: every sequence of the tree has a node.

The reading stops at the first offence. A `(` without partner is found at the end of the pattern;
the innermost one is named.
-/

namespace RoutePattern

/-- A group whose `)` has not been read yet. Sequences are kept with their last node first, and
so is the list of alternatives. -/
structure OpenGroup where
  /-- The offset of the `(`. -/
  offset : Nat
  /-- The id of the group. -/
  id : Nat
  /-- The nodes before the group in its own sequence. -/
  before : List Node
  /-- The alternatives that a `|` has ended. -/
  finished : List (List Node)

/-- A pattern as far as it has been read. -/
structure Draft where
  /-- The greatest id in use. -/
  lastId : Nat
  /-- The sequence under way, last node first. -/
  nodes : List Node
  /-- The open groups, innermost first. -/
  groups : List OpenGroup

namespace Draft

/-- Nothing has been read. -/
def empty : Draft := ⟨0, [], []⟩

/-- A character of a literal: it joins the literal that stands last, or begins a new one. -/
def addChar (draft : Draft) (c : Char) : Draft :=
  match draft.nodes with
  | .literal id text :: before => { draft with nodes := .literal id (text ++ [c]) :: before }
  | nodes =>
    { draft with lastId := draft.lastId + 1, nodes := .literal (draft.lastId + 1) [c] :: nodes }

/-- A parameter. -/
def addParameter (draft : Draft) (name : Text) (optional : Bool) : Draft :=
  { draft with
    lastId := draft.lastId + 1
    nodes := .parameter (draft.lastId + 1) name optional :: draft.nodes }

/-- The `(` at `offset` opens a group. -/
def openGroup (draft : Draft) (offset : Nat) : Draft where
  lastId := draft.lastId + 1
  nodes := []
  groups := ⟨offset, draft.lastId + 1, draft.nodes, []⟩ :: draft.groups

/-- A `|` ends an alternative of the innermost group. It takes an id, though no node keeps it. -/
def endAlternative? (draft : Draft) : Option Draft :=
  match draft.groups with
  | [] => none
  | group :: outer => some
    { lastId := draft.lastId + 1
      nodes := []
      groups := { group with finished := draft.nodes :: group.finished } :: outer }

/-- A sequence whose nodes stand last first, in reading order, and the greatest id after it: a
sequence without nodes becomes an empty literal with the next id. -/
def filled (lastId : Nat) : List Node → List Node × Nat
  | [] => ([.literal (lastId + 1) []], lastId + 1)
  | nodes => (nodes.reverse, lastId)

/-- Every alternative filled, the ids given out from the first to the last. -/
def fillAll (lastId : Nat) : List (List Node) → List (List Node) × Nat
  | [] => ([], lastId)
  | nodes :: rest =>
    let (first, lastId) := filled lastId nodes
    let (others, lastId) := fillAll lastId rest
    (first :: others, lastId)

/-- A `)` closes the innermost group. -/
def closeGroup? (draft : Draft) (optional : Bool) : Option Draft :=
  match draft.groups with
  | [] => none
  | group :: outer =>
    let (alternatives, lastId) := fillAll draft.lastId (draft.nodes :: group.finished).reverse
    some
      { lastId
        nodes := .group group.id alternatives optional :: group.before
        groups := outer }

/-- The draft after one more lexeme, or what is wrong with it and where. -/
def read (draft : Draft) : Lexeme → Except (Nat × Misspelling) Draft
  | .char c => .ok (draft.addChar c)
  | .parameter name optional => .ok (draft.addParameter name optional)
  | .opening offset => .ok (draft.openGroup offset)
  | .closing offset optional =>
    match draft.closeGroup? optional with
    | some draft => .ok draft
    | none => .error (offset, .unmatchedParenthesis)
  | .bar offset =>
    match draft.endAlternative? with
    | some draft => .ok draft
    | none => .error (offset, .strayBar)
  | .loneEscape offset => .error (offset, .danglingEscape)
  | .unnamed offset => .error (offset, .missingName)

/-- The draft after all the lexemes. -/
def readAll (draft : Draft) : List Lexeme → Except (Nat × Misspelling) Draft
  | [] => .ok draft
  | lexeme :: rest =>
    match draft.read lexeme with
    | .ok draft => draft.readAll rest
    | .error offence => .error offence

/-- The tree of a draft that is read to its end. -/
def finish (draft : Draft) : Except (Nat × Misspelling) (List Node) :=
  match draft.groups with
  | [] => .ok (filled draft.lastId draft.nodes).1
  | group :: _ => .error (group.offset, .unmatchedParenthesis)

end Draft

/-- The tree of a text, or where and how its spelling first fails. -/
def readTree (pattern : Text) : Except (Nat × Misspelling) (List Node) :=
  match Draft.empty.readAll (lexemes pattern) with
  | .ok draft => draft.finish
  | .error offence => .error offence

/-- The tree of a pattern. -/
def parse (pattern : Text) : Except PatternError (List Node) :=
  if maxPatternLength < pattern.byteLength then .error (.tooLong pattern.byteLength)
  else match readTree pattern with
    | .ok nodes => .ok nodes
    | .error (offset, reason) => .error (.misspelled pattern offset reason)

end RoutePattern
