import RoutePattern.Automaton.Basic
import RoutePattern.Graph.Compile
import RoutePattern.Graph.Walks
import RoutePattern.Node.Parse

/-!
# Automata of patterns

Each pattern is read, compiled and taken apart into its walks on its own. Walks with one normal
form are one path, and its end state gets the tag of the pattern. The paths of all patterns, in
order, are the pool of one automaton; so the matches of an earlier pattern come first.
-/

namespace RoutePattern

variable {τ : Type}

/-- The normal form of a path that has text between its captures. -/
def Path.checked (path : Path τ) : Except PatternError (Path τ) := do
  path.normal.check
  return path.normal

/-- The different paths of a pattern, in priority order. -/
def pathsOf (pattern : Text) : Except PatternError (List (Path Unit)) := do
  let graph ← compile (← parse pattern)
  if !(graph.back?.any fun state => state.kind.isAccept) then throw (.malformed .missingEnd)
  let found ← walks graph
  return (← found.mapM Path.checked).eraseDups

/-- The paths of a pattern with its tag in their end states. -/
def taggedPathsOf (pattern : Text) (tag : τ) : Except PatternError (List (Path τ)) := do
  return (← pathsOf pattern).map fun path => path.map (Kind.map fun _ => tag)

namespace Automaton

/-- The automaton of patterns with tags, or why the first bad one of them is refused. -/
def ofPatterns (patterns : List (Text × τ)) : Except PatternError (Automaton τ) := do
  let pools ← patterns.mapM fun (pattern, tag) => taggedPathsOf pattern tag
  ofPaths pools.flatten

/-- The automaton of one pattern. -/
def ofPattern (pattern : Text) : Except PatternError (Automaton Unit) := ofPatterns [(pattern, ())]

end Automaton

end RoutePattern
