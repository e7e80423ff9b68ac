import RoutePattern.Automaton.Basic
import RoutePattern.Params

/-!
# The backtracking search

A search walks an automaton depth first. Its state is a stack of frames, the walk so far: each
frame holds a state, how many of the edges of the state have been tried, and what is left of the
input behind the text that the state took. A capture first takes one character; when nothing
behind it matches, it is tried again with one more.

`step` makes one move of a stack, and `weight_step_lt` says that each move makes a stack lighter:
an edge leads on to a greater id or to a shorter rest, and a capture is tried again only with a
shorter rest. So `nextMatch?`, which moves until a match is found, comes to an end.
-/

namespace RoutePattern

/-- What a walk to an end state has found. -/
structure Match (τ : Type) where
  /-- The texts of the captures. -/
  params : Params
  /-- The tag of the end state. -/
  tag : τ
deriving DecidableEq

/-- A state on the walk under way. -/
structure Frame where
  /-- The id of the state. -/
  state : Nat
  /-- How many of the edges of the state have been tried. -/
  edge : Nat
  /-- The input behind the text of the state. -/
  rest : Text
deriving Repr, DecidableEq

/-- The input without its first character, unless the capture `name` may not take that. -/
def takeChar? (name : Text) : Text → Option Text
  | [] => none
  | c :: rest => if c = '/' ∧ name ≠ remainderName then none else some rest

theorem length_of_takeChar? {name input rest : Text} (h : takeChar? name input = some rest) :
    input.length = rest.length + 1 := by
  cases input with
  | nil => simp [takeChar?] at h
  | cons c input =>
    simp only [takeChar?] at h
    split at h <;> simp_all

namespace Kind

variable {τ : Type}

/-- The input behind the text that a state takes first, if it takes any. -/
def enter? (kind : Kind τ) (input : Text) : Option Text :=
  match kind with
  | start => some input
  | accept _ => some input
  | fixed text => text.isPrefixOf? input
  | capture name => takeChar? name input

/-- The input behind one more character, if the state can take one more. -/
def grow? (kind : Kind τ) (input : Text) : Option Text :=
  match kind with
  | capture name => takeChar? name input
  | _ => none

theorem length_enter?_le {kind : Kind τ} {input rest : Text} (h : kind.enter? input = some rest) :
    rest.length ≤ input.length := by
  cases kind with
  | start => simp_all [enter?]
  | accept _ => simp_all [enter?]
  | fixed text =>
    rw [enter?, Text.isPrefixOf?_eq_some_iff] at h
    have := congrArg List.length h
    rw [List.length_append] at this
    omega
  | capture name =>
    have := length_of_takeChar? h
    omega

theorem length_grow?_lt {kind : Kind τ} {input rest : Text} (h : kind.grow? input = some rest) :
    rest.length < input.length := by
  cases kind with
  | capture name =>
    have := length_of_takeChar? h
    omega
  | _ => simp [grow?] at h

end Kind

namespace Automaton

variable {τ : Type}

/-- The stack after one move from the frame `top` over `below`. -/
def step (automaton : Automaton τ) (top : Frame) (below : List Frame) : List Frame :=
  match automaton.states[top.state]? with
  | none => below
  | some state =>
    if state.kind.isAccept then below
    else match state.next[top.edge]? with
      | some target =>
        match automaton.states[target]?.bind fun next => next.kind.enter? top.rest with
        | some rest => ⟨target, 0, rest⟩ :: { top with edge := top.edge + 1 } :: below
        | none => { top with edge := top.edge + 1 } :: below
      | none =>
        match state.kind.grow? top.rest with
        | some rest => ⟨top.state, 0, rest⟩ :: below
        | none => below

/-- The captures on a stack in walking order. A capture took the input between the frame below
it and its own. -/
def captures (automaton : Automaton τ) : (stack : List Frame) → List (Text × Text)
  | top :: under :: below =>
    automaton.captures (under :: below) ++
      match automaton.states[top.state]?.map State.kind with
      | some (.capture name) => [(name, under.rest.before top.rest)]
      | _ => []
  | _ => []

/-- What a stack has found: something if its top is an end state and the input is used up. -/
def found? (automaton : Automaton τ) (top : Frame) (below : List Frame) : Option (Match τ) :=
  match automaton.tag? top.state with
  | some tag =>
    if top.rest.isEmpty then some ⟨Params.ofCaptures (automaton.captures (top :: below)), tag⟩
    else none
  | none => none

/-! ## Weight -/

/-- The number of edges of a state. -/
def degree (automaton : Automaton τ) (id : Nat) : Nat :=
  match automaton.states[id]? with
  | some state => state.next.size
  | none => 0

/-- A number above the number of edges of every state. -/
def breadth (automaton : Automaton τ) : Nat :=
  automaton.states.foldl (fun most state => max most state.next.size) 0 + 2

/-- How many moves down a frame may lead: each move takes a character or goes to a greater id. -/
def height (automaton : Automaton τ) (frame : Frame) : Nat :=
  frame.rest.length * (automaton.states.size + 1) + (automaton.states.size - frame.state)

/-- The weight of one edge of a frame. -/
def edgeWeight (automaton : Automaton τ) (frame : Frame) : Nat :=
  automaton.breadth.pow (automaton.height frame)

/-- The weight of a frame: that of every edge still to be tried, and of one more. -/
def frameWeight (automaton : Automaton τ) (frame : Frame) : Nat :=
  (1 + (automaton.degree frame.state - frame.edge)) * automaton.edgeWeight frame

/-- The weight of a stack. -/
def weight (automaton : Automaton τ) : (stack : List Frame) → Nat
  | [] => 0
  | frame :: stack => automaton.frameWeight frame + weight automaton stack

@[simp] theorem weight_nil (automaton : Automaton τ) : automaton.weight [] = 0 := rfl

@[simp] theorem weight_cons (automaton : Automaton τ) (frame : Frame) (stack : List Frame) :
    automaton.weight (frame :: stack) = automaton.frameWeight frame + automaton.weight stack := rfl

theorem le_foldl_max (states : List (State τ)) (most : Nat) :
    most ≤ states.foldl (fun most state => max most state.next.size) most ∧
      ∀ state ∈ states,
        state.next.size ≤ states.foldl (fun most state => max most state.next.size) most := by
  induction states generalizing most with
  | nil => simp
  | cons first rest ih =>
    have h := ih (max most first.next.size)
    refine ⟨by simp only [List.foldl_cons]; omega, fun state hstate => ?_⟩
    rcases List.mem_cons.1 hstate with rfl | hstate
    · simp only [List.foldl_cons]; omega
    · exact h.2 state hstate

theorem degree_lt_breadth (automaton : Automaton τ) (id : Nat) :
    automaton.degree id + 1 < automaton.breadth := by
  unfold degree breadth
  split
  · next state h =>
    have hmem : state ∈ automaton.states.toList := by
      simpa using Array.mem_of_getElem? h
    have := (le_foldl_max automaton.states.toList 0).2 state hmem
    rw [← Array.foldl_toList]
    omega
  · omega

theorem edgeWeight_pos (automaton : Automaton τ) (frame : Frame) :
    0 < automaton.edgeWeight frame :=
  Nat.pow_pos (by unfold breadth; omega)

theorem frameWeight_pos (automaton : Automaton τ) (frame : Frame) :
    0 < automaton.frameWeight frame :=
  Nat.mul_pos (by omega) (automaton.edgeWeight_pos frame)

/-- A frame with no edge tried is lighter than one edge of any frame that is higher. -/
theorem frameWeight_lt_edgeWeight (automaton : Automaton τ) {low high : Frame}
    (h : automaton.height low < automaton.height high) :
    automaton.frameWeight low < automaton.edgeWeight high := by
  have hd : 1 + (automaton.degree low.state - low.edge) < automaton.breadth := by
    have := automaton.degree_lt_breadth low.state
    omega
  calc automaton.frameWeight low
      < automaton.breadth * automaton.edgeWeight low :=
        Nat.mul_lt_mul_of_pos_right hd (automaton.edgeWeight_pos low)
    _ = automaton.breadth.pow (automaton.height low + 1) := Nat.mul_comm _ _
    _ ≤ automaton.edgeWeight high := Nat.pow_le_pow_right (by unfold breadth; omega) h

theorem height_lt_of_shorter (automaton : Automaton τ) {low high : Frame}
    (h : low.rest.length < high.rest.length) : automaton.height low < automaton.height high := by
  unfold height
  have := Nat.mul_le_mul_right (automaton.states.size + 1) (show low.rest.length + 1 ≤ _ from h)
  rw [Nat.succ_mul] at this
  omega

theorem height_lt_of_greater (automaton : Automaton τ) {low high : Frame}
    (hr : low.rest.length ≤ high.rest.length) (hs : high.state < low.state)
    (hb : high.state < automaton.states.size) : automaton.height low < automaton.height high := by
  unfold height
  have := Nat.mul_le_mul_right (automaton.states.size + 1) hr
  omega

/-- A frame with an edge to try loses the weight of that edge when the edge has been tried. -/
theorem frameWeight_next_edge (automaton : Automaton τ) {frame : Frame}
    (h : frame.edge < automaton.degree frame.state) :
    automaton.frameWeight { frame with edge := frame.edge + 1 } +
      automaton.edgeWeight frame = automaton.frameWeight frame := by
  have he : 1 + (automaton.degree frame.state - frame.edge) =
      (1 + (automaton.degree frame.state - (frame.edge + 1))) + 1 := by omega
  have hh : automaton.edgeWeight { frame with edge := frame.edge + 1 } =
      automaton.edgeWeight frame := rfl
  simp only [frameWeight, hh, he, Nat.succ_mul]

/-- Each move makes a stack lighter. -/
theorem weight_step_lt (automaton : Automaton τ) (top : Frame) (below : List Frame) :
    automaton.weight (automaton.step top below) < automaton.weight (top :: below) := by
  have hpos := automaton.frameWeight_pos top
  rw [weight_cons]
  unfold step
  split
  · omega
  · next state hstate =>
    have hsize : top.state < automaton.states.size := by
      obtain ⟨h, -⟩ := Array.getElem?_eq_some_iff.1 hstate
      exact h
    have hdegree : automaton.degree top.state = state.next.size := by simp [degree, hstate]
    split
    · omega
    · split
      · next target htarget =>
        have hmem : target ∈ state.next := Array.mem_of_getElem? htarget
        have hlt := automaton.forward _ _ hstate _ hmem
        have hedge : top.edge < automaton.degree top.state := by
          obtain ⟨h, -⟩ := Array.getElem?_eq_some_iff.1 htarget
          omega
        have hnext := automaton.frameWeight_next_edge hedge
        have hpow := automaton.edgeWeight_pos top
        split
        · next rest hrest =>
          obtain ⟨next, -, henter⟩ := Option.bind_eq_some_iff.1 hrest
          have hlow : automaton.frameWeight ⟨target, 0, rest⟩ < _ := automaton.frameWeight_lt_edgeWeight
            (automaton.height_lt_of_greater (Kind.length_enter?_le henter) hlt hsize)
          rw [weight_cons, weight_cons]
          omega
        · rw [weight_cons]
          omega
      · split
        · next rest hrest =>
          have hlow : automaton.frameWeight ⟨top.state, 0, rest⟩ < _ :=
            automaton.frameWeight_lt_edgeWeight
              (automaton.height_lt_of_shorter (Kind.length_grow?_lt hrest))
          have hle : automaton.edgeWeight top ≤ automaton.frameWeight top :=
            Nat.le_mul_of_pos_left _ (by omega)
          rw [weight_cons]
          omega
        · omega

/-! ## Matches -/

/-- The first match that the moves of a stack come to, and the stack behind it. -/
def nextMatch? (automaton : Automaton τ) : List Frame → Option (Match τ × List Frame)
  | [] => none
  | top :: below =>
    match automaton.found? top below with
    | some found => some (found, automaton.step top below)
    | none => automaton.nextMatch? (automaton.step top below)
termination_by stack => automaton.weight stack
decreasing_by exact automaton.weight_step_lt top below

/-- A match leaves a lighter stack behind. -/
theorem weight_nextMatch?_lt (automaton : Automaton τ) {stack left : List Frame} {found : Match τ}
    (h : automaton.nextMatch? stack = some (found, left)) :
    automaton.weight left < automaton.weight stack := by
  fun_induction nextMatch? automaton stack with
  | case1 => simp at h
  | case2 top below found' _ =>
    cases h
    exact automaton.weight_step_lt top below
  | case3 top below _ ih => exact Nat.lt_trans (ih h) (automaton.weight_step_lt top below)

/-- The stack of a search that begins: the walk is at the start state. -/
def startStack (input : Text) : List Frame := [⟨0, 0, input⟩]

end Automaton

end RoutePattern
