import RoutePattern.Error
import RoutePattern.Graph.Basic

/-!
# Normal paths

Different paths may ask the same of the input: empty literals ask nothing, and a literal may be
cut anywhere. `Path.normal` drops the former and joins neighbouring literals. `Path.check` refuses
a path with two captures and no text between them.
-/

namespace RoutePattern.Path

variable {τ : Type}

/-- Whether the kind is a literal without text. -/
def isEmptyText : Kind τ → Bool
  | .fixed [] => true
  | _ => false

/-- The path without its empty literals. -/
def withoutEmpty (path : Path τ) : Path τ := path.filter fun kind => !isEmptyText kind

/-- The path with each run of literals made one. -/
def joined : Path τ → Path τ
  | [] => []
  | .fixed text :: rest =>
    match joined rest with
    | .fixed next :: others => .fixed (text ++ next) :: others
    | others => .fixed text :: others
  | kind :: rest => kind :: joined rest

/-- The path without empty literals and with each run of literals made one. -/
def normal (path : Path τ) : Path τ := joined (withoutEmpty path)

/-- The first two captures of a path with no text between them; `previous` is the capture that
the path follows directly. -/
def adjacentAfter : (previous : Option Text) → Path τ → Option (Text × Text)
  | _, [] => none
  | previous, .fixed [] :: rest => adjacentAfter previous rest
  | none, .capture name :: rest => adjacentAfter (some name) rest
  | some first, .capture second :: _ => some (first, second)
  | _, _ :: rest => adjacentAfter none rest

/-- Refuses a path with two captures and no text between them, and names the first two. -/
def check (path : Path τ) : Except PatternError Unit :=
  match adjacentAfter none path with
  | some (first, second) => .error (.ambiguous first second)
  | none => .ok ()

/-- Whether the last kind of a path is its only end state. -/
def endsOnce (path : Path τ) : Bool := path.findIdx? Kind.isAccept == some (path.length - 1)

end RoutePattern.Path
