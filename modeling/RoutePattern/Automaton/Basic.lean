import RoutePattern.Path.Normal

/-!
# Automata laid out from paths

A pool of paths becomes one automaton: from the start state one edge leads to each path, in pool
order, and each path is a chain of states. Beside the states it keeps what the paths tell about
every input that they match:

* `minLength` and `maxLength?`, bounds of its length in bytes;
* `onlyFixed`, that no path has a capture, and `literals`, the texts of the paths without capture
  with their end states: if all paths are of this kind, a look-up replaces the search;
* `tails`, the texts that stand last on some path: one of them must end the input.

Every edge leads to a greater id (`layout_forward`), so a walk is finite.
-/

namespace RoutePattern

namespace Path

variable {τ : Type}

/-- The fewest bytes that a path matches: a capture takes at least one. -/
def leastLength : Path τ → Nat
  | [] => 0
  | .fixed text :: rest => text.byteLength + leastLength rest
  | .capture _ :: rest => 1 + leastLength rest
  | _ :: rest => leastLength rest

/-- The most bytes that a path matches: with a capture there is no bound. -/
def greatestLength? : Path τ → Option Nat
  | [] => some 0
  | .fixed text :: rest => (greatestLength? rest).map (text.byteLength + ·)
  | .capture _ :: _ => none
  | _ :: rest => greatestLength? rest

/-- The text of a path without captures. -/
def literalText? : Path τ → Option Text
  | [] => some []
  | .fixed text :: rest => (literalText? rest).map (text ++ ·)
  | .capture _ :: _ => none
  | _ :: rest => literalText? rest

/-- The text of the last state that is no end state; empty unless that state is a literal. -/
def tail (path : Path τ) : Text :=
  match path.reverse.find? fun kind => !kind.isAccept with
  | some (.fixed text) => text
  | _ => []

/-- The states of a path whose first id is `first`. -/
def chain (first : Nat) : Path τ → List (State τ)
  | [] => []
  | kind :: rest => ⟨kind, if kind.isAccept then #[] else #[first + 1]⟩ :: chain (first + 1) rest

/-- The states of the paths, one after the other, the first id being `first`. -/
def chains (first : Nat) : List (Path τ) → List (State τ)
  | [] => []
  | path :: rest => chain first path ++ chains (first + path.length) rest

/-- The ids at which the paths begin. -/
def heads (first : Nat) : List (Path τ) → List Nat
  | [] => []
  | path :: rest => first :: heads (first + path.length) rest

/-- The texts of the paths without captures, with the ids of their end states. -/
def literals (first : Nat) : List (Path τ) → List (Text × Nat)
  | [] => []
  | path :: rest =>
    let others := literals (first + path.length) rest
    match literalText? path with
    | some text => (text, first + path.length - 1) :: others
    | none => others

/-- The graph of a pool of paths. -/
def layout (paths : List (Path τ)) : Graph τ :=
  (⟨.start, (heads 1 paths).toArray⟩ :: chains 1 paths).toArray

theorem le_of_mem_heads {first id : Nat} {paths : List (Path τ)} (h : id ∈ heads first paths) :
    first ≤ id := by
  induction paths generalizing first with
  | nil => simp [heads] at h
  | cons path rest ih =>
    rcases List.mem_cons.1 h with rfl | h
    · exact Nat.le_refl _
    · have := ih h
      omega

theorem chain_forward {first id target : Nat} {path : Path τ} {state : State τ}
    (h : (chain first path)[id]? = some state) (ht : target ∈ state.next) :
    target = first + id + 1 := by
  induction path generalizing first id with
  | nil => simp [chain] at h
  | cons kind rest ih =>
    rw [chain] at h
    cases id with
    | zero =>
      simp only [List.getElem?_cons_zero, Option.some.injEq] at h
      subst h
      cases hk : kind.isAccept <;> simp_all
    | succ id =>
      have := ih (by simpa using h)
      omega

theorem length_chain (first : Nat) (path : Path τ) : (chain first path).length = path.length := by
  induction path generalizing first with
  | nil => rfl
  | cons kind rest ih => simp [chain, ih]

theorem chains_forward {first id target : Nat} {paths : List (Path τ)} {state : State τ}
    (h : (chains first paths)[id]? = some state) (ht : target ∈ state.next) :
    target = first + id + 1 := by
  induction paths generalizing first id with
  | nil => simp [chains] at h
  | cons path rest ih =>
    rw [chains] at h
    by_cases hid : id < (chain first path).length
    · rw [List.getElem?_append_left hid] at h
      exact chain_forward h ht
    · rw [List.getElem?_append_right (by omega)] at h
      have := ih h
      rw [length_chain] at this hid
      omega

theorem layout_forward {id target : Nat} {paths : List (Path τ)} {state : State τ}
    (h : (layout paths)[id]? = some state) (ht : target ∈ state.next) : id < target := by
  simp only [layout, List.getElem?_toArray] at h
  cases id with
  | zero =>
    simp only [List.getElem?_cons_zero, Option.some.injEq] at h
    subst h
    exact Nat.lt_of_lt_of_le Nat.zero_lt_one (le_of_mem_heads (by simpa using ht))
  | succ id =>
    have := chains_forward (by simpa using h) ht
    omega

end Path

/-- A pool of paths laid out as a graph, with what the paths have in common. -/
structure Automaton (τ : Type) where
  /-- The fewest bytes of a matching input; 0 without paths. -/
  minLength : Nat
  /-- The most bytes of a matching input, or `none` if a path has a capture. -/
  maxLength? : Option Nat
  /-- No path has a capture. -/
  onlyFixed : Bool
  /-- The texts of the paths without captures with their end states, in pool order. -/
  literals : List (Text × Nat)
  /-- The texts that stand last on some path, in order, each once. -/
  tails : List Text
  /-- The states; the first one is the start state. -/
  states : Graph τ
  /-- Edges lead to greater ids. -/
  forward : ∀ (id : Nat) (state : State τ), states[id]? = some state →
    ∀ target ∈ state.next, id < target

namespace Automaton

variable {τ : Type}

/-- The automaton of a pool of paths that are normal and end once. -/
def ofNormal (paths : List (Path τ)) : Automaton τ where
  minLength := (paths.map Path.leastLength).min?.getD 0
  maxLength? := (paths.mapM Path.greatestLength?).map fun lengths => lengths.foldl max 0
  onlyFixed := paths.all fun path => path.literalText?.isSome
  literals := Path.literals 1 paths
  tails := Text.sortedDistinct (paths.map Path.tail)
  states := Path.layout paths
  forward _ _ h _ ht := Path.layout_forward h ht

/-- The normal form of a path that has text between its captures and ends in its only end state. -/
def prepare (path : Path τ) : Except PatternError (Path τ) := do
  let path := path.normal
  path.check
  if path.endsOnce then return path else throw (.malformed .misplacedEnd)

/-- The automaton of a pool of paths. -/
def ofPaths (paths : List (Path τ)) : Except PatternError (Automaton τ) := do
  return ofNormal (← paths.mapM prepare)

/-- The number of paths. -/
def pathCount (automaton : Automaton τ) : Nat :=
  match automaton.states[0]? with
  | some start => start.next.size
  | none => 0

/-- The tag of an end state. -/
def tag? (automaton : Automaton τ) (id : Nat) : Option τ :=
  match automaton.states[id]?.map State.kind with
  | some (.accept tag) => some tag
  | _ => none

/-- The end states of the paths without captures that spell `input`. -/
def endsOf (automaton : Automaton τ) (input : Text) : List Nat :=
  automaton.literals.filterMap fun (text, id) => if text = input then some id else none

/-- The texts of the paths without captures in order, each with all its end states. -/
def literalTable (automaton : Automaton τ) : List (Text × List Nat) :=
  (Text.sortedDistinct (automaton.literals.map Prod.fst)).map fun text =>
    (text, automaton.endsOf text)

/-- Whether some path has a capture of that name. -/
def hasCapture (automaton : Automaton τ) (name : Text) : Bool :=
  automaton.states.any fun state => match state.kind with
    | .capture other => other == name
    | _ => false

/-- Whether a match may hold the rest of the input, slashes included. -/
def hasRemainder (automaton : Automaton τ) : Bool := automaton.hasCapture remainderName

/-- Whether the length and the end of `input` allow a match. -/
def mayMatch (automaton : Automaton τ) (input : Text) : Bool :=
  automaton.minLength ≤ input.byteLength &&
    automaton.maxLength?.all (input.byteLength ≤ ·) &&
    (automaton.onlyFixed || automaton.tails.any (·.isSuffixOf input))

end Automaton

end RoutePattern
