import RoutePattern.Automaton.Search

/-!
# The matches of an input

`Matches` is the enumeration of the matches of one input as far as it has got; `Matches.next`
gives the next one, if there is one, and the enumeration behind it. An input that `mayMatch`
refuses has no matches, and if no path has a capture the end states are looked up. Otherwise the
search is run from one match to the next, so nothing is searched that nobody asks for.

`remaining` counts down at every match (`remaining_next_lt`), so an enumeration ends; behind its
end it stays there (`next_none`).
-/

namespace RoutePattern

variable {τ : Type}

/-- How the next match is found. -/
inductive Progress where
  /-- There is none. -/
  | done
  /-- It is at the first of these end states. -/
  | ends (ids : List Nat)
  /-- It is searched from this stack on. -/
  | searching (stack : List Frame)
deriving Repr, DecidableEq

/-- An enumeration of the matches of an input. -/
structure Matches (τ : Type) where
  automaton : Automaton τ
  input : Text
  progress : Progress

namespace Automaton

/-- The enumeration of the matches of `input`, before the first one. -/
def matchesOf (automaton : Automaton τ) (input : Text) : Matches τ where
  automaton
  input
  progress :=
    if !automaton.mayMatch input then .done
    else if automaton.onlyFixed then .ends (automaton.endsOf input)
    else .searching (startStack input)

end Automaton

namespace Matches

/-- The enumeration with other progress. -/
def proceed (found : Matches τ) (progress : Progress) : Matches τ := { found with progress }

/-- The next match, and the enumeration behind it. Without a next match the enumeration is over. -/
def next (found : Matches τ) : Option (Match τ) × Matches τ :=
  match found.progress with
  | .done => (none, found.proceed .done)
  | .ends [] => (none, found.proceed .done)
  | .ends (id :: rest) =>
    match found.automaton.tag? id with
    | some tag => (some ⟨.empty, tag⟩, found.proceed (.ends rest))
    | none => (none, found.proceed .done)
  | .searching stack =>
    match found.automaton.nextMatch? stack with
    | some (first, left) => (some first, found.proceed (.searching left))
    | none => (none, found.proceed .done)

/-- A bound of the number of matches to come. -/
def remaining (found : Matches τ) : Nat :=
  match found.progress with
  | .done => 0
  | .ends ids => ids.length
  | .searching stack => found.automaton.weight stack

/-- A match lowers the bound. -/
theorem remaining_next_lt {found left : Matches τ} {first : Match τ}
    (h : found.next = (some first, left)) : left.remaining < found.remaining := by
  unfold next at h
  split at h
  · simp at h
  · simp at h
  · next id rest heq =>
    split at h
    · cases h
      simp [remaining, proceed, heq]
    · simp at h
  · next stack heq =>
    split at h
    · next hn =>
      cases h
      have := found.automaton.weight_nextMatch?_lt hn
      simpa [remaining, proceed, heq] using this
    · simp at h

/-- Where there is no next match, the enumeration is over, and it stays so. -/
theorem next_none {found left : Matches τ} (h : found.next = (none, left)) :
    left.next = (none, left) := by
  have hdone : left = found.proceed .done := by
    unfold next at h
    split at h
    · cases h; rfl
    · cases h; rfl
    · split at h
      · simp at h
      · cases h; rfl
    · split at h
      · simp at h
      · cases h; rfl
  subst hdone
  rfl

/-- All matches to come. -/
def toList (found : Matches τ) : List (Match τ) :=
  match _h : found.next with
  | (some first, left) => first :: left.toList
  | (none, _) => []
termination_by found.remaining
decreasing_by exact remaining_next_lt _h

/-- The next `count` matches, or fewer if there are no more. -/
def take (found : Matches τ) : (count : Nat) → List (Match τ)
  | 0 => []
  | count + 1 =>
    match found.next with
    | (some first, left) => first :: left.take count
    | (none, _) => []

/-- An enumeration as it is shown: only its input is. -/
def display (found : Matches τ) : Text :=
  "Matches \x7b input: ".toList ++ found.input.quoted ++ ", .. \x7d".toList

end Matches

namespace Automaton

/-- The first match of `input`. -/
def firstMatch? (automaton : Automaton τ) (input : Text) : Option (Match τ) :=
  (automaton.matchesOf input).next.1

/-- Whether `input` has a match. -/
def isMatch (automaton : Automaton τ) (input : Text) : Bool := (automaton.firstMatch? input).isSome

end Automaton

end RoutePattern
