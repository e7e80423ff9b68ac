import RoutePattern.Text.Basic

/-!
# Why a pattern is refused

Every refusal happens while a pattern is read, compiled or laid out; matching a path never
fails. `PatternError` holds the cause, `PatternError.message` the sentence shown for it and
`PatternError.kind` its short name.
-/

namespace RoutePattern

/-- The longest pattern that is read, in bytes. -/
def maxPatternLength : Nat := 4096

/-- The greatest number of walks from start to end that one pattern may have. -/
def maxPaths : Nat := 1024

/-- Why the characters of a text do not form a pattern. -/
inductive Misspelling where
  /-- The last character is a `\` that escapes nothing. -/
  | danglingEscape
  /-- A `(` or a `)` has no partner. -/
  | unmatchedParenthesis
  /-- A `|` stands outside every group. -/
  | strayBar
  /-- A `:` is not followed by a name. -/
  | missingName
deriving Repr, DecidableEq

/-- The sentence shown for a misspelling. -/
def Misspelling.message : Misspelling → String
  | .danglingEscape => "dangling escape at end of pattern"
  | .unmatchedParenthesis => "unmatched parentheses"
  | .strayBar => "'|' outside of a group"
  | .missingName => "expected a parameter name after ':'"

/-- Which rule of a tree, of a graph or of a path is broken. -/
inductive Fault where
  /-- The tree has no node. -/
  | emptySequence
  /-- An alternative of a group has no node. -/
  | emptyAlternative
  /-- The tree holds a separator. -/
  | separatorLeft
  /-- An edge leads to an id that no state has. -/
  | unknownTarget (id : Nat)
  /-- An edge leaves an id that no state has. -/
  | unknownSource (id : Nat)
  /-- An edge leaves the end state. -/
  | edgeAfterEnd
  /-- The first state of the graph is no start state. -/
  | missingStart
  /-- A walk is longer than the graph has states. -/
  | cycle
  /-- The last state of the graph is no end state. -/
  | missingEnd
  /-- A path does not have its only end state in the last place. -/
  | misplacedEnd
deriving Repr, DecidableEq

/-- The sentence shown for a fault. -/
def Fault.message : Fault → String
  | .emptySequence => "empty node sequence"
  | .emptyAlternative => "empty group alternative"
  | .separatorLeft => "group separator left in a finished tree"
  | .unknownTarget id => "edge to unknown state " ++ id.repr
  | .unknownSource id => "edge from unknown state " ++ id.repr
  | .edgeAfterEnd => "end state must not have outgoing edges"
  | .missingStart => "state 0 must be the start state"
  | .cycle => "cycle in state graph"
  | .missingEnd => "terminal state is not an end state"
  | .misplacedEnd => "path must end in exactly one end state"

/-- Why a pattern, a tree, a graph or a pool of paths is refused. -/
inductive PatternError where
  /-- The text is not spelled as a pattern; the offset is that of the offending character. -/
  | misspelled (pattern : Text) (offset : Nat) (reason : Misspelling)
  /-- A rule that every pattern keeps is broken, so the fault came from elsewhere. -/
  | malformed (fault : Fault)
  /-- Two captures meet with no literal text between them, so nothing tells where the first
  one ends. -/
  | ambiguous (first second : Text)
  /-- The text has more bytes than `maxPatternLength`. -/
  | tooLong (length : Nat)
  /-- There are more walks than `maxPaths`. -/
  | tooManyPaths
deriving Repr, DecidableEq

namespace PatternError

/-- The short name of an error, the same for every error of one constructor. -/
def kind : PatternError → String
  | misspelled .. => "syntax"
  | malformed _ => "structural"
  | ambiguous .. => "ambiguous"
  | tooLong _ => "too_long"
  | tooManyPaths => "too_many_paths"

/-- The sentence shown for an error. The pattern and the names stand in it as they are. -/
def message : PatternError → String
  | misspelled pattern offset reason =>
    "syntax error in pattern \"" ++ String.ofList pattern ++ "\" at byte " ++ offset.repr ++
      ": " ++ reason.message
  | malformed fault => "malformed automaton: " ++ fault.message
  | ambiguous first second =>
    "ambiguous pattern: :" ++ String.ofList first ++ " and :" ++ String.ofList second ++
      " have no literal text between them"
  | tooLong length =>
    "pattern length is " ++ length.repr ++ ", but maximum allowed is " ++ maxPatternLength.repr
  | tooManyPaths =>
    "pattern expands to more than " ++ maxPaths.repr ++
      " paths; reduce the number of optional elements"

end PatternError

end RoutePattern
