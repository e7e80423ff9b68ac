import RoutePattern.Text.Quoted

/-!
# States, graphs and paths

A graph is an array of states; the id of a state is its place in the array. An edge leads to an
id, and the edges of a state are in priority order: the first one is tried first. A path is the
list of the kinds met on a walk, without the start state that the walk begins at.
-/

namespace RoutePattern

/-- What a state consumes of the input. `τ` is the type of the tags that end states carry. -/
inductive Kind (τ : Type) where
  /-- Nothing: a walk begins here. -/
  | start
  /-- Exactly this text. -/
  | fixed (text : Text)
  /-- At least one character, recorded under this name. -/
  | capture (name : Text)
  /-- Nothing: a walk ends here and has found `tag`. -/
  | accept (tag : τ)
deriving Repr, DecidableEq

/-- The name whose capture may hold a `/`. -/
def remainderName : Text := ['_']

namespace Kind

variable {τ υ : Type}

/-- Whether a walk ends in such a state. -/
def isAccept : Kind τ → Bool
  | accept _ => true
  | _ => false

/-- The kind with another tag in an end state. -/
def map (f : τ → υ) : Kind τ → Kind υ
  | start => .start
  | fixed text => .fixed text
  | capture name => .capture name
  | accept tag => .accept (f tag)

/-- A kind as it is shown in a listing. -/
def display : Kind τ → Text
  | start => ['^']
  | fixed text => text.quoted
  | capture name => ':' :: name
  | accept _ => ['$']

end Kind

/-- A state of a graph. -/
structure State (τ : Type) where
  kind : Kind τ
  /-- The ids of the states that the edges lead to, the first choice first. -/
  next : Array Nat
deriving Repr, DecidableEq

namespace State

variable {τ υ : Type}

/-- The state with another tag if it is an end state. -/
def map (f : τ → υ) (state : State τ) : State υ := ⟨state.kind.map f, state.next⟩

/-- A state in a listing: its id, its kind and where its edges lead. -/
def display (id : Nat) (state : State τ) : Text :=
  Text.padLeft 3 (Text.ofNat id) ++ ' ' :: state.kind.display ++
    if state.next.isEmpty then []
    else [' ', '-', '>', ' '] ++ Text.join [',', ' '] (state.next.toList.map Text.ofNat)

end State

/-- States by their ids. -/
abbrev Graph (τ : Type) := Array (State τ)

/-- The kinds met on a walk, the end state included and the start state left out. -/
abbrev Path (τ : Type) := List (Kind τ)

end RoutePattern
