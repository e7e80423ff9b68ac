import RoutePattern.Proofs.Automaton.Matches
import RoutePattern.Proofs.Automaton.Offsets

/-!
# The stacks of a search

The frames of a stack stand on the start state and then, one above the other, on the first states
of one path, and each frame has taken from what the frame below it left a text that its state may
take (`Climbs`). The search begins with such a stack, and a move leads from one to another
(`Upright.step`), so every stack that a search comes to is one (`Upright.moves`).
-/

namespace RoutePattern

variable {τ : Type}

/-! ## What a frame has taken -/

namespace Kind

/-- A frame at the state may have taken `piece`. -/
def Spans : Kind τ → Text → Prop
  | fixed text, piece => piece = text
  | capture name, piece => IsValue name piece
  | _, piece => piece = []

end Kind

theorem takeChar?_eq_some_iff {name input rest : Text} :
    takeChar? name input = some rest ↔
      ∃ c, input = c :: rest ∧ ¬ (c = '/' ∧ name ≠ remainderName) := by
  cases input with
  | nil => simp [takeChar?]
  | cons c input =>
    rw [takeChar?]
    by_cases hslash : c = '/' ∧ name ≠ remainderName
    · rw [if_pos hslash]
      constructor
      · intro h
        cases h
      · rintro ⟨d, h, hno⟩
        rw [← (List.cons_eq_cons.1 h).1] at hno
        exact absurd hslash hno
    · rw [if_neg hslash, Option.some.injEq]
      constructor
      · rintro rfl
        exact ⟨c, rfl, hslash⟩
      · rintro ⟨d, h, -⟩
        exact (List.cons_eq_cons.1 h).2

/-- A value goes on with every character that its name allows. -/
theorem IsValue.concat {name value : Text} {c : Char} (h : IsValue name value)
    (hc : ¬ (c = '/' ∧ name ≠ remainderName)) : IsValue name (value ++ [c]) := by
  refine ⟨by simp, ?_⟩
  by_cases hname : name = remainderName
  · exact .inl hname
  · have hslash : c ≠ '/' := fun heq => hc ⟨heq, hname⟩
    have hvalue : '/' ∉ value := h.2.resolve_left hname
    exact .inr (by simp [hvalue, hslash.symm])

namespace Kind

theorem exists_of_enter? {kind : Kind τ} {input rest : Text} (h : kind.enter? input = some rest) :
    ∃ piece, kind.Spans piece ∧ input = piece ++ rest := by
  cases kind with
  | start => exact ⟨[], rfl, Option.some.inj h⟩
  | accept tag => exact ⟨[], rfl, Option.some.inj h⟩
  | fixed text => exact ⟨text, rfl, Text.isPrefixOf?_eq_some_iff.1 h⟩
  | capture name =>
    obtain ⟨c, rfl, hc⟩ := takeChar?_eq_some_iff.1 h
    exact ⟨[c], Path.isValue_cons_iff.2 ⟨hc, .inl rfl⟩, rfl⟩

theorem exists_of_grow? {kind : Kind τ} {input rest piece : Text} (h : kind.grow? input = some rest)
    (hpiece : kind.Spans piece) : ∃ c, kind.Spans (piece ++ [c]) ∧ input = c :: rest := by
  cases kind with
  | start => cases h
  | accept tag => cases h
  | fixed text => cases h
  | capture name =>
    obtain ⟨c, rfl, hc⟩ := takeChar?_eq_some_iff.1 h
    exact ⟨c, hpiece.concat hc, rfl⟩

end Kind

namespace Automaton

/-! ## Moves -/

/-- That many moves lead from one stack to another. -/
inductive Moves (automaton : Automaton τ) : List Frame → Nat → List Frame → Prop
  | none {stack : List Frame} : Moves automaton stack 0 stack
  | more {top : Frame} {below last : List Frame} {count : Nat}
      (hmoves : Moves automaton (automaton.step top below) count last) :
      Moves automaton (top :: below) (count + 1) last

/-- What a move may do: it leaves the top frame, tries an edge of it, enters the state that the edge
leads to, or takes one more character. -/
theorem step_cases (automaton : Automaton τ) (top : Frame) (below : List Frame) :
    automaton.step top below = below ∨
    automaton.step top below = { top with edge := top.edge + 1 } :: below ∨
    (∃ state next target rest, automaton.states[top.state]? = some state ∧ target ∈ state.next ∧
      automaton.states[target]? = some next ∧ next.kind.enter? top.rest = some rest ∧
      automaton.step top below =
        ⟨target, 0, rest⟩ :: { top with edge := top.edge + 1 } :: below) ∨
    ∃ state rest, automaton.states[top.state]? = some state ∧
      state.kind.grow? top.rest = some rest ∧
      automaton.step top below = ⟨top.state, 0, rest⟩ :: below := by
  unfold step
  split
  · exact .inl rfl
  · next state hstate =>
    split
    · exact .inl rfl
    · split
      · next target htarget =>
        split
        · next rest hrest =>
          obtain ⟨next, hnext, henter⟩ := Option.bind_eq_some_iff.1 hrest
          exact .inr (.inr (.inl ⟨state, next, target, rest, hstate,
            Array.mem_of_getElem? htarget, hnext, henter, rfl⟩))
        · exact .inr (.inl rfl)
      · split
        · next rest hrest => exact .inr (.inr (.inr ⟨state, rest, hstate, hrest, rfl⟩))
        · exact .inl rfl

theorem Moves.trans {automaton : Automaton τ} {stack next last : List Frame} {count more : Nat}
    (h : automaton.Moves stack count next) (hmore : automaton.Moves next more last) :
    automaton.Moves stack (count + more) last := by
  induction h with
  | none => rwa [Nat.zero_add]
  | @more top below next count _ ih =>
    rw [Nat.add_right_comm]
    exact .more (ih hmore)

/-- A search makes no more moves than its stack weighs. -/
theorem Moves.count_le {automaton : Automaton τ} {stack last : List Frame} {count : Nat}
    (h : automaton.Moves stack count last) :
    count + automaton.weight last ≤ automaton.weight stack := by
  induction h with
  | none => omega
  | @more top below last count _ ih =>
    have := automaton.weight_step_lt top below
    omega

/-! ## Upright stacks -/

/-- The bottom frame stands on the start state and has taken nothing of the input. Above it the
frames stand on the first states of a path that is placed at `head`, each with a text that its
state may take. -/
def Climbs (head : Nat) (path : Path τ) (input : Text) : (stack : List Frame) → Prop
  | [] => True
  | [bottom] => bottom.state = 0 ∧ bottom.rest = input
  | top :: under :: below =>
    (top.state = head + below.length ∧ ∃ kind piece, path[below.length]? = some kind ∧
      kind.Spans piece ∧ under.rest = piece ++ top.rest) ∧
    Climbs head path input (under :: below)

/-- The stack climbs one of the paths; with one frame only it has not begun to. -/
def Upright (paths : List (Path τ)) (input : Text) (stack : List Frame) : Prop :=
  ∃ head path, (1 < stack.length → (head, path) ∈ (Path.heads 1 paths).zip paths) ∧
    Climbs head path input stack

section Climbs

variable {head : Nat} {path : Path τ} {input : Text} {top : Frame} {below : List Frame}

theorem Climbs.tail (h : Climbs head path input (top :: below)) : Climbs head path input below := by
  cases below with
  | nil => trivial
  | cons under below => exact h.2

/-- The edges that have been tried do not matter. -/
theorem Climbs.with_edge (h : Climbs head path input (top :: below)) (edge : Nat) :
    Climbs head path input ({ top with edge } :: below) := by
  cases below with
  | nil => exact h
  | cons under below => exact h

/-- What a frame has left ends the input. -/
theorem Climbs.exists_lead (h : Climbs head path input (top :: below)) :
    ∃ lead, input = lead ++ top.rest := by
  induction below generalizing top with
  | nil => exact ⟨[], h.2.symm⟩
  | cons under below ih =>
    obtain ⟨⟨-, kind, piece, -, -, hrest⟩, hbelow⟩ := h
    obtain ⟨lead, hlead⟩ := ih hbelow
    exact ⟨lead ++ piece, by rw [hlead, hrest, List.append_assoc]⟩

/-- By offsets too, what a frame has taken stands between the frame below and itself. -/
theorem Climbs.exists_slice {under : Frame} (h : Climbs head path input (top :: under :: below)) :
    ∃ kind piece, path[below.length]? = some kind ∧ kind.Spans piece ∧
      under.rest = piece ++ top.rest ∧
      input.slice? (input.offsetOf under.rest) (input.offsetOf top.rest) = some piece := by
  obtain ⟨⟨-, kind, piece, hkind, hpiece, hunder⟩, hclimbs⟩ := h
  obtain ⟨lead, hlead⟩ := hclimbs.exists_lead
  refine ⟨kind, piece, hkind, hpiece, hunder, ?_⟩
  rw [hlead, hunder]
  exact Text.slice?_offsetOf lead piece top.rest

theorem Upright.tail {paths : List (Path τ)} (h : Upright paths input (top :: below)) :
    Upright paths input below := by
  obtain ⟨head, path, hentry, hclimbs⟩ := h
  refine ⟨head, path, fun hlength => hentry ?_, hclimbs.tail⟩
  rw [List.length_cons]
  omega

theorem upright_startStack (paths : List (Path τ)) (input : Text) :
    Upright paths input (startStack input) :=
  ⟨0, [], fun h => absurd h (by simp [startStack]), rfl, rfl⟩

end Climbs

section Layout

variable {paths : List (Path τ)} {input : Text} {top : Frame} {below stack : List Frame}

/-- The state of the top frame is there, and it is the one that the path asks for. -/
theorem Upright.exists_state (h : Upright paths input (top :: below)) :
    ∃ head path state, (1 < (top :: below).length → (head, path) ∈ (Path.heads 1 paths).zip paths) ∧
      Climbs head path input (top :: below) ∧ (ofNormal paths).states[top.state]? = some state ∧
      (.start :: path)[below.length]? = some state.kind := by
  obtain ⟨head, path, hentry, hclimbs⟩ := h
  cases below with
  | nil =>
    have hstart :
        (ofNormal paths).states[top.state]? = some ⟨.start, (Path.heads 1 paths).toArray⟩ := by
      rw [hclimbs.1]
      rfl
    exact ⟨head, path, _, hentry, hclimbs, hstart, rfl⟩
  | cons under below =>
    obtain ⟨⟨htop, kind, piece, hkind, -⟩, -⟩ := id hclimbs
    have hstate := (Path.placedAt_layout paths _ (hentry (by simp))).getElem? hkind
    rw [← htop] at hstate
    refine ⟨head, path, _, hentry, hclimbs, hstate, ?_⟩
    rw [List.length_cons, List.getElem?_cons_succ, hkind]

/-- The edges of the top state lead to where the next frame stands, on a path that the stack
climbs. -/
theorem Upright.exists_target (hends : ∀ path ∈ paths, ∃ tag, path.Ends tag)
    (h : Upright paths input (top :: below)) {state : State τ} {target : Nat}
    (hstate : (ofNormal paths).states[top.state]? = some state) (htarget : target ∈ state.next) :
    ∃ head path next, (head, path) ∈ (Path.heads 1 paths).zip paths ∧
      Climbs head path input (top :: below) ∧ target = head + below.length ∧
      path[below.length]? = some next.kind ∧ (ofNormal paths).states[target]? = some next := by
  have hplaced := Path.placedAt_layout paths
  obtain ⟨head, path, hentry, hclimbs⟩ := h
  cases below with
  | nil =>
    -- The start state has an edge to every path.
    rw [hclimbs.1] at hstate
    obtain rfl : ⟨.start, (Path.heads 1 paths).toArray⟩ = state := Option.some.inj hstate
    obtain ⟨path, hmem⟩ := Path.exists_mem_zip_heads (List.mem_toArray.1 htarget)
    obtain ⟨tag, htag⟩ := hends path (List.of_mem_zip hmem).2
    have hkind := List.getElem?_eq_getElem htag.length_pos
    exact ⟨target, path, _, hmem, hclimbs, rfl, hkind, (hplaced _ hmem).getElem? hkind⟩
  | cons under below =>
    -- Any other state has one to the next state of its path, unless it is the end.
    obtain ⟨⟨htop, kind, piece, hkind, -⟩, -⟩ := id hclimbs
    have hmem := hentry (by simp)
    obtain ⟨tag, htag⟩ := hends path (List.of_mem_zip hmem).2
    have hown := (hplaced _ hmem).getElem? hkind
    rw [← htop] at hown
    obtain rfl := Option.some.inj (hown.symm.trans hstate)
    cases haccept : kind.isAccept with
    | true => simp [haccept] at htarget
    | false =>
      have hnext : target = head + below.length + 1 := by
        rw [← htop]
        simpa [haccept] using htarget
      obtain ⟨next, hplace⟩ := htag.exists_getElem?_succ hkind haccept
      exact ⟨head, path, _, hmem, hclimbs, hnext, hplace, hnext ▸ (hplaced _ hmem).getElem? hplace⟩

/-- A move leads from one upright stack to another. -/
theorem Upright.step (hends : ∀ path ∈ paths, ∃ tag, path.Ends tag)
    (h : Upright paths input (top :: below)) :
    Upright paths input ((ofNormal paths).step top below) := by
  rcases (ofNormal paths).step_cases top below with hstep | hstep |
    ⟨state, next, target, rest, hstate, htarget, hnext, henter, hstep⟩ |
    ⟨state, rest, hstate, hgrow, hstep⟩
  · rw [hstep]
    exact h.tail
  · rw [hstep]
    obtain ⟨head, path, hentry, hclimbs⟩ := h
    exact ⟨head, path, hentry, hclimbs.with_edge _⟩
  · rw [hstep]
    obtain ⟨head, path, other, hmem, hclimbs, htop, hplace, hother⟩ :=
      h.exists_target hends hstate htarget
    obtain rfl := Option.some.inj (hnext.symm.trans hother)
    obtain ⟨piece, hpiece, hrest⟩ := Kind.exists_of_enter? henter
    exact ⟨head, path, fun _ => hmem, ⟨htop, _, piece, hplace, hpiece, hrest⟩, hclimbs.with_edge _⟩
  · rw [hstep]
    obtain ⟨head, path, own, hentry, hclimbs, hown, hplace⟩ := h.exists_state
    obtain rfl := Option.some.inj (hstate.symm.trans hown)
    cases below with
    | nil =>
      -- The start state takes no character.
      rw [← Option.some.inj hplace] at hgrow
      cases hgrow
    | cons under below =>
      obtain ⟨⟨htop, kind, piece, hkind, hpiece, hunder⟩, hbelow⟩ := hclimbs
      obtain rfl := Option.some.inj (hkind.symm.trans hplace)
      obtain ⟨c, hlonger, hrest⟩ := Kind.exists_of_grow? hgrow hpiece
      have hlast : under.rest = piece ++ [c] ++ rest := by
        rw [hunder, hrest, List.append_assoc]
        rfl
      exact ⟨head, path, fun _ => hentry (by simp),
        ⟨htop, _, piece ++ [c], hkind, hlonger, hlast⟩, hbelow⟩

/-- Every stack that moves lead to from an upright stack is upright. -/
theorem Upright.moves (hends : ∀ path ∈ paths, ∃ tag, path.Ends tag) {last : List Frame}
    {count : Nat} (h : Upright paths input stack)
    (hmoves : (ofNormal paths).Moves stack count last) : Upright paths input last := by
  induction hmoves with
  | none => exact h
  | more _ ih => exact ih (h.step hends)

end Layout

end Automaton

end RoutePattern
