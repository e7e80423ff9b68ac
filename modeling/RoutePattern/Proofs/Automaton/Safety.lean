import Mathlib.Data.List.Chain
import RoutePattern.Proofs.Automaton.Stacks

/-!
# A search never fails and always ends

On an upright stack the search by offsets does what the search does (`Upright.moveAt?_eq`,
`Upright.foundAt?_eq`): no state is missing, and no offset falls behind the end of the input or
inside a character. `InPlace` says where the marks of such a stack stand.

Each call of `Matches.next` runs a number of moves (`comesTo_nextMatch?`), and a number of calls
gives what the list of all matches has at its place (`fst_next_after`): behind its end, nothing.
-/

namespace RoutePattern

variable {τ : Type}

namespace Automaton

/-! ## The search by offsets does not fail -/

section Upright

variable {paths : List (Path τ)} {input : Text} {top : Frame} {below stack : List Frame}

/-- The captures of a stack can be cut out of the input. -/
theorem Upright.capturesAt?_eq (h : Upright paths input stack) :
    (ofNormal paths).capturesAt? input (stack.map (Frame.mark input)) =
      some ((ofNormal paths).captures stack) := by
  induction stack with
  | nil => rfl
  | cons top below ih =>
    have hbelow := ih h.tail
    obtain ⟨_, _, state, -, hclimbs, hstate, -⟩ := h.exists_state
    cases below with
    | nil => rfl
    | cons under below =>
      obtain ⟨_, piece, -, -, hunder, hslice⟩ := hclimbs.exists_slice
      rw [List.map_cons, List.map_cons, capturesAt?, ← List.map_cons, hbelow, captures]
      simp only [Frame.mark, hstate, Option.map_some, bind, Option.bind_some, pure]
      cases state.kind with
      | start => simp
      | accept tag => simp
      | fixed text => simp
      | capture name =>
        have hvalue : under.rest.before top.rest = piece := by rw [hunder, Text.before_append]
        simp only [hslice, Option.bind_some, hvalue]

/-- By offsets a move leads to the same stack. -/
theorem Upright.moveAt?_eq (hends : ∀ path ∈ paths, ∃ tag, path.Ends tag)
    (h : Upright paths input (top :: below)) :
    (ofNormal paths).moveAt? input (top.mark input) (below.map (Frame.mark input)) =
      some (((ofNormal paths).step top below).map (Frame.mark input)) := by
  obtain ⟨_, _, state, -, hclimbs, hstate, -⟩ := h.exists_state
  obtain ⟨lead, hlead⟩ := hclimbs.exists_lead
  unfold moveAt? Automaton.step
  simp only [Frame.mark, hstate, Option.bind_some]
  cases haccept : state.kind.isAccept with
  | true => rfl
  | false =>
    simp only [Bool.false_eq_true, ↓reduceIte]
    cases hedge : state.next[top.edge]? with
    | none =>
      have hgrow : state.kind.growAt? input (input.offsetOf top.rest) = _ :=
        hlead ▸ state.kind.growAt?_offsetOf lead top.rest
      simp only [hgrow]
      cases state.kind.grow? top.rest <;> rfl
    | some target =>
      obtain ⟨_, _, next, -, -, -, -, hnext⟩ :=
        h.exists_target hends hstate (Array.mem_of_getElem? hedge)
      have henter : next.kind.enterAt? input (input.offsetOf top.rest) = _ :=
        hlead ▸ next.kind.enterAt?_offsetOf lead top.rest
      simp only [hnext, Option.bind_some, henter]
      cases next.kind.enter? top.rest <;> rfl

/-- By offsets a stack has found the same. -/
theorem Upright.foundAt?_eq (h : Upright paths input (top :: below)) :
    (ofNormal paths).foundAt? input (top.mark input) (below.map (Frame.mark input)) =
      some ((ofNormal paths).found? top below) := by
  have hcaptures := h.capturesAt?_eq
  obtain ⟨_, _, state, -, hclimbs, hstate, -⟩ := h.exists_state
  obtain ⟨lead, hlead⟩ := hclimbs.exists_lead
  have hend : input.offsetOf top.rest = input.byteLength ↔ top.rest = [] :=
    hlead ▸ Text.offsetOf_eq_byteLength_iff lead top.rest
  rw [List.map_cons] at hcaptures
  unfold foundAt? found? tag?
  rw [hcaptures]
  simp only [Frame.mark, hstate, Option.bind_some, Option.map_some, hend, List.isEmpty_iff]
  cases state.kind with
  | start => rfl
  | fixed text => rfl
  | capture name => rfl
  | accept tag => by_cases hrest : top.rest = [] <;> simp [hrest]

end Upright

/-! ## Where the marks stand -/

/-- What holds of every stack of a search by offsets; the top of the stack comes first. -/
structure InPlace (automaton : Automaton τ) (paths : List (Path τ)) (input : Text)
    (stack : List Mark) : Prop where
  /-- The bottom stands on the start state, before the input. -/
  bottom : ∀ mark ∈ stack.getLast?, mark.state = 0 ∧ mark.offset = 0
  /-- The others stand on the first states of one path, each on the next one. -/
  on_path : ∃ head path, (1 < stack.length → (head, path) ∈ (Path.heads 1 paths).zip paths) ∧
    ∀ depth mark, stack.reverse[depth + 1]? = some mark → mark.state = head + depth ∧
      ∃ state, automaton.states[mark.state]? = some state ∧ path[depth]? = some state.kind
  /-- No offset is less than one further down. -/
  ordered : (stack.map Mark.offset).Pairwise (· ≥ ·)
  /-- No offset is behind the end of the input or inside a character. -/
  bounded : ∀ mark ∈ stack, mark.offset ≤ input.byteLength ∧
    ∃ lead rest, input = lead ++ rest ∧ lead.byteLength = mark.offset
  /-- Between the offset below and its own stands what the state may take. -/
  spans : stack.IsChain fun top under => ∃ state piece,
    automaton.states[top.state]? = some state ∧
    input.slice? under.offset top.offset = some piece ∧ state.kind.Spans piece

section InPlace

variable {paths : List (Path τ)} {input : Text} {stack : List Frame}

/-- At the bottom of a stack stands the start state, with all of the input. -/
theorem Climbs.of_mem_getLast? {head : Nat} {path : Path τ} (h : Climbs head path input stack)
    {frame : Frame} (hframe : frame ∈ stack.getLast?) : frame.state = 0 ∧ frame.rest = input := by
  induction stack with
  | nil => cases hframe
  | cons top below ih =>
    cases below with
    | nil =>
      obtain rfl : top = frame := Option.some.inj hframe
      exact h
    | cons under below => exact ih h.2 (by rwa [List.getLast?_cons_cons] at hframe)

theorem Climbs.of_getElem?_reverse {head : Nat} {path : Path τ} (h : Climbs head path input stack)
    {depth : Nat} {frame : Frame} (hframe : stack.reverse[depth + 1]? = some frame) :
    frame.state = head + depth ∧ ∃ kind, path[depth]? = some kind := by
  induction stack with
  | nil => cases hframe
  | cons top below ih =>
    rw [List.reverse_cons] at hframe
    -- Counted from the bottom, the top is the last frame; all others are those of the stack below.
    by_cases hdepth : depth + 1 < below.length
    · rw [List.getElem?_append_left (by rwa [List.length_reverse])] at hframe
      exact ih h.tail hframe
    · cases below with
      | nil => cases hframe
      | cons under below =>
        obtain ⟨⟨htop, kind, piece, hkind, -⟩, -⟩ := h
        rw [List.length_cons] at hdepth
        have hlast := (List.getElem?_eq_some_iff.1 hframe).1
        rw [List.length_append, List.length_reverse, List.length_cons,
          List.length_singleton] at hlast
        obtain rfl : depth = below.length := by omega
        rw [List.getElem?_append_right (by simp)] at hframe
        obtain rfl : top = frame := by simpa using hframe
        exact ⟨htop, kind, hkind⟩

/-- Between two marks stands what the state of the upper one has taken. -/
theorem Upright.spans (h : Upright paths input stack) :
    (stack.map (Frame.mark input)).IsChain fun top under => ∃ state piece,
      (ofNormal paths).states[top.state]? = some state ∧
      input.slice? under.offset top.offset = some piece ∧ state.kind.Spans piece := by
  induction stack with
  | nil => exact .nil
  | cons top below ih =>
    have hbelow := ih h.tail
    obtain ⟨head, path, state, -, hclimbs, hstate, hplace⟩ := h.exists_state
    cases below with
    | nil => exact .singleton _
    | cons under below =>
      obtain ⟨kind, piece, hkind, hpiece, -, hslice⟩ := hclimbs.exists_slice
      obtain rfl := Option.some.inj (hkind.symm.trans hplace)
      exact .cons_cons ⟨state, piece, hstate, hslice, hpiece⟩ hbelow

theorem Upright.exists_lead_of_mem (h : Upright paths input stack) {frame : Frame}
    (hframe : frame ∈ stack) : ∃ lead, input = lead ++ frame.rest := by
  induction stack with
  | nil => cases hframe
  | cons top below ih =>
    rcases List.mem_cons.1 hframe with rfl | hframe
    · obtain ⟨head, path, -, hclimbs⟩ := h
      exact hclimbs.exists_lead
    · exact ih h.tail hframe

theorem Upright.inPlace (h : Upright paths input stack) :
    InPlace (ofNormal paths) paths input (stack.map (Frame.mark input)) where
  bottom := by
    intro mark hmark
    rw [List.getLast?_map] at hmark
    obtain ⟨frame, hframe, rfl⟩ := Option.map_eq_some_iff.1 hmark
    obtain ⟨_, _, -, hclimbs⟩ := h
    obtain ⟨hstate, hrest⟩ := hclimbs.of_mem_getLast? hframe
    exact ⟨hstate, by rw [Frame.mark, hrest, Text.offsetOf_self]⟩
  on_path := by
    obtain ⟨head, path, hentry, hclimbs⟩ := h
    refine ⟨head, path, by rwa [List.length_map], ?_⟩
    intro depth mark hmark
    rw [← List.map_reverse, List.getElem?_map] at hmark
    obtain ⟨frame, hframe, rfl⟩ := Option.map_eq_some_iff.1 hmark
    obtain ⟨hstate, kind, hkind⟩ := hclimbs.of_getElem?_reverse hframe
    have hlength := (List.getElem?_eq_some_iff.1 hframe).1
    rw [List.length_reverse] at hlength
    have hplaced := Path.placedAt_layout paths _ (hentry (by omega))
    have hfound := hplaced.getElem? hkind
    rw [← hstate] at hfound
    exact ⟨hstate, _, hfound, hkind⟩
  ordered := by
    refine List.isChain_iff_pairwise.1 ((List.isChain_map Mark.offset).2 (h.spans.imp ?_))
    rintro top under ⟨_, _, -, hslice, -⟩
    exact Text.le_of_slice? hslice
  bounded := by
    intro mark hmark
    obtain ⟨frame, hframe, rfl⟩ := List.mem_map.1 hmark
    obtain ⟨lead, hlead⟩ := h.exists_lead_of_mem hframe
    have hoffset : lead.byteLength = input.offsetOf frame.rest := by
      rw [hlead, Text.offsetOf_append]
    exact ⟨Nat.sub_le _ _, lead, frame.rest, hlead, hoffset⟩
  spans := h.spans

end InPlace

/-! ## Calls -/

/-- The moves of a stack come to this: a match and the stack behind it, or an empty stack. -/
def ComesTo (automaton : Automaton τ) (stack : List Frame) : Option (Match τ × List Frame) → Prop
  | some (found, left) => ∃ count top below, automaton.Moves stack count (top :: below) ∧
      automaton.found? top below = some found ∧ left = automaton.step top below
  | none => ∃ count, automaton.Moves stack count []

theorem comesTo_nextMatch? (automaton : Automaton τ) (stack : List Frame) :
    automaton.ComesTo stack (automaton.nextMatch? stack) := by
  fun_induction nextMatch? automaton stack with
  | case1 => exact ⟨0, .none⟩
  | case2 top below found hfound => exact ⟨0, top, below, .none, hfound, rfl⟩
  | case3 top below hnone ih =>
    cases hnext : automaton.nextMatch? (automaton.step top below) with
    | none =>
      rw [hnext] at ih
      obtain ⟨count, hmoves⟩ := ih
      exact ⟨count + 1, .more hmoves⟩
    | some result =>
      rw [hnext] at ih
      obtain ⟨count, last, rest, hmoves, hfound⟩ := ih
      exact ⟨count + 1, last, rest, .more hmoves, hfound⟩

/-- A call that leaves a stack behind has found the next match of a stack. -/
theorem exists_of_next_searching {found : Matches τ} {left : List Frame}
    (h : found.next.2.progress = .searching left) :
    ∃ stack first, found.progress = .searching stack ∧
      found.automaton.nextMatch? stack = some (first, left) := by
  unfold Matches.next at h
  split at h
  · cases h
  · cases h
  · split at h <;> cases h
  · next stack hstack =>
    split at h
    · next first last hnext =>
      obtain rfl : last = left := Progress.searching.inj h
      exact ⟨stack, first, hstack, hnext⟩
    · cases h

/-- Between two calls an enumeration that searches keeps a stack that its search moves to. -/
theorem exists_moves_of_searching {automaton : Automaton τ} {input : Text} {calls : Nat}
    {stack : List Frame}
    (h : ((automaton.matchesOf input).after calls).progress = .searching stack) :
    ∃ count, automaton.Moves (startStack input) count stack := by
  induction calls generalizing stack with
  | zero =>
    -- An enumeration that is over at once, or goes through end states, has no stack.
    have hstart : stack = startStack input := by
      simp only [Matches.after, matchesOf] at h
      split at h
      · cases h
      · split at h
        · cases h
        · exact (Progress.searching.inj h).symm
    exact ⟨0, hstart ▸ .none⟩
  | succ calls ih =>
    obtain ⟨before, first, hbefore, hnext⟩ := exists_of_next_searching h
    obtain ⟨count, hmoves⟩ := ih hbefore
    obtain ⟨progress, hafter⟩ := (automaton.matchesOf input).exists_after_eq calls
    rw [hafter] at hnext
    have hcomes := automaton.comesTo_nextMatch? before
    rw [show automaton.nextMatch? before = some (first, stack) from hnext] at hcomes
    obtain ⟨more, top, below, hmore, -, rfl⟩ := hcomes
    exact ⟨_, (hmoves.trans hmore).trans (.more .none)⟩

/-- On every stack that the moves of a search come to the marks are in place, so by offsets the same
is found and the same stack comes next, and no look-up of a state and no slice of the input fails.
There are no more moves than the first stack weighs. Every call of an enumeration goes on from such
a stack, comes to its next match or to an empty stack, and gives the match at its place in the list
of all: each call behind the last one gives none. -/
theorem search_inPlace {paths : List (Path τ)} {automaton : Automaton τ}
    (h : ofPaths paths = .ok automaton) (input : Text) :
    (∀ count stack, automaton.Moves (startStack input) count stack →
      InPlace automaton (paths.map Path.normal) input (stack.map (Frame.mark input)) ∧
      (∀ top below, stack = top :: below →
        automaton.foundAt? input (top.mark input) (below.map (Frame.mark input)) =
          some (automaton.found? top below) ∧
        automaton.moveAt? input (top.mark input) (below.map (Frame.mark input)) =
          some ((automaton.step top below).map (Frame.mark input))) ∧
      count ≤ automaton.weight (startStack input)) ∧
    ∀ calls,
      (∀ stack, ((automaton.matchesOf input).after calls).progress = .searching stack →
        (∃ count, automaton.Moves (startStack input) count stack) ∧
        automaton.ComesTo stack (automaton.nextMatch? stack)) ∧
      ((automaton.matchesOf input).after calls).next.1 =
        (automaton.matchesOf input).toList[calls]? := by
  have hends := ends_of_ofPaths h
  obtain ⟨rfl, -⟩ := ofPaths_eq_ok_iff.1 h
  constructor
  · intro count stack hmoves
    have hupright := (upright_startStack (paths.map Path.normal) input).moves hends hmoves
    refine ⟨hupright.inPlace, ?_, ?_⟩
    · rintro top below rfl
      exact ⟨hupright.foundAt?_eq, hupright.moveAt?_eq hends⟩
    · exact Nat.le_trans (Nat.le_add_right _ _) hmoves.count_le
  · intro calls
    refine ⟨?_, Matches.fst_next_after _ calls⟩
    intro stack hstack
    exact ⟨exists_moves_of_searching hstack, comesTo_nextMatch? _ stack⟩

/-- A path between whose captures stands a character of two bytes. -/
def accentPaths : List (Path Nat) :=
  [[.capture ['a'], .fixed [Char.ofNat 233], .capture ['b'], .accept 0]]

/-- The input has that character twice, so the path has two matches. -/
def accentInput : Text := ['x', Char.ofNat 233, 'y', Char.ofNat 233, 'z']

theorem search_inPlace_accentPaths : ∃ automaton stack, ofPaths accentPaths = .ok automaton ∧
    automaton.Moves (startStack accentInput) 3 stack ∧
    stack.map (Frame.mark accentInput) = [⟨3, 0, 4⟩, ⟨2, 1, 3⟩, ⟨1, 1, 1⟩, ⟨0, 1, 0⟩] ∧
    InPlace automaton (accentPaths.map Path.normal) accentInput
      [⟨3, 0, 4⟩, ⟨2, 1, 3⟩, ⟨1, 1, 1⟩, ⟨0, 1, 0⟩] ∧
    ((automaton.matchesOf accentInput).after 2).next.1 = none := by
  have hok : ofPaths accentPaths = .ok (ofNormal (accentPaths.map Path.normal)) := rfl
  have hmoves : (ofNormal (accentPaths.map Path.normal)).Moves (startStack accentInput) 3 _ :=
    .more (.more (.more .none))
  obtain ⟨hstacks, hcalls⟩ := search_inPlace hok accentInput
  have hplace := (hstacks 3 _ hmoves).1
  have hlist :
      ((ofNormal (accentPaths.map Path.normal)).matchesOf accentInput).toList.length = 2 := by
    rw [toList_matchesOf (ends_of_ofPaths hok)]
    decide +kernel
  refine ⟨_, _, hok, hmoves, ?_, hplace, ?_⟩
  · decide +kernel
  · rw [(hcalls 2).2, List.getElem?_eq_none_iff, hlist]

end Automaton

end RoutePattern
