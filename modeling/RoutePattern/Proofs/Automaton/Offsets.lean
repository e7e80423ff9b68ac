import RoutePattern.Automaton.Search

/-!
# The search by offsets

A frame holds what is left of the input. It may as well hold how many bytes of the input have been
taken (`Mark`), but an offset can be wrong: behind the end of the input, or inside a character. So
reading at an offset can fail (`Text.cutAt?`, `Text.slice?`), as a look-up of a state can.
`Automaton.moveAt?` is a move by offsets that fails as soon as one of these does.

Where the offset is that of a rest of the input, nothing fails and both ways agree: a state takes
the same text (`Kind.enterAt?_offsetOf`, `Kind.growAt?_offsetOf`), and a slice is what stands
between two rests (`slice?_offsetOf`).
-/

namespace RoutePattern

variable {τ : Type}

namespace Text

/-- The text in two parts, the first of that many bytes; there is no cut inside a character or
behind the end. -/
def cutAt? : (t : Text) → (offset : Nat) → Option (Text × Text)
  | t, 0 => some ([], t)
  | [], _ + 1 => none
  | c :: t, offset + 1 =>
    if c.utf8Size ≤ offset + 1 then
      (cutAt? t (offset + 1 - c.utf8Size)).map fun (lead, rest) => (c :: lead, rest)
    else none

/-- What stands behind an offset, if that is a place in the text. -/
def behind? (t : Text) (offset : Nat) : Option Text := (t.cutAt? offset).map Prod.snd

/-- The text between two offsets, if both are places in the text and in order. -/
def slice? (t : Text) (first last : Nat) : Option Text :=
  if first ≤ last then
    (t.behind? first).bind fun rest => (rest.cutAt? (last - first)).map Prod.fst
  else none

/-- A text is cut where the first part has that many bytes. -/
theorem cutAt?_eq_some_iff {t lead rest : Text} {offset : Nat} :
    t.cutAt? offset = some (lead, rest) ↔ t = lead ++ rest ∧ lead.byteLength = offset := by
  fun_induction cutAt? t offset generalizing lead with
  | case1 t =>
    constructor
    · intro h
      obtain ⟨rfl, rfl⟩ := Prod.mk.inj (Option.some.inj h)
      exact ⟨rfl, rfl⟩
    · rintro ⟨rfl, hlead⟩
      have hnil : lead = [] := by
        have := length_le_byteLength lead
        exact List.length_eq_zero_iff.1 (by omega)
      rw [hnil, List.nil_append]
  | case2 offset =>
    refine iff_of_false nofun ?_
    rintro ⟨h, hlead⟩
    -- The text is at its end, but bytes are still asked for.
    rw [(List.append_eq_nil_iff.1 h.symm).1] at hlead
    cases hlead
  | case3 c t offset hfits ih =>
    simp only [Option.map_eq_some_iff, Prod.exists, Prod.mk.injEq]
    constructor
    · rintro ⟨lead, rest, hcut, rfl, rfl⟩
      obtain ⟨rfl, hlead⟩ := ih.1 hcut
      exact ⟨rfl, by rw [byteLength_cons]; omega⟩
    · rintro ⟨h, hlead⟩
      cases lead with
      | nil => cases hlead
      | cons d lead =>
        obtain ⟨rfl, rfl⟩ := List.cons_eq_cons.1 h
        rw [byteLength_cons] at hlead
        exact ⟨lead, rest, ih.2 ⟨rfl, by omega⟩, rfl, rfl⟩
  | case4 c t offset hsplit =>
    refine iff_of_false nofun ?_
    rintro ⟨h, hlead⟩
    cases lead with
    | nil => cases hlead
    | cons d lead =>
      obtain ⟨rfl, -⟩ := List.cons_eq_cons.1 h
      rw [byteLength_cons] at hlead
      omega

/-- The offset at which a rest of the text begins. -/
def offsetOf (t rest : Text) : Nat := t.byteLength - rest.byteLength

/-- A rest begins behind the bytes of what stands before it. -/
theorem offsetOf_append (lead rest : Text) : offsetOf (lead ++ rest) rest = lead.byteLength := by
  unfold offsetOf
  rw [byteLength_append]
  omega

theorem offsetOf_self (t : Text) : offsetOf t t = 0 := Nat.sub_self _

theorem offsetOf_append_append (lead piece rest : Text) :
    offsetOf (lead ++ (piece ++ rest)) rest = lead.byteLength + piece.byteLength := by
  rw [← List.append_assoc, offsetOf_append, byteLength_append]

/-- All of the text has been taken when nothing is left. -/
theorem offsetOf_eq_byteLength_iff (lead rest : Text) :
    offsetOf (lead ++ rest) rest = (lead ++ rest).byteLength ↔ rest = [] := by
  have hlength := length_le_byteLength rest
  rw [offsetOf_append, byteLength_append]
  constructor
  · intro h
    exact List.length_eq_zero_iff.1 (by omega)
  · rintro rfl
    rfl

/-- Behind the offset of a rest stands this rest. -/
theorem behind?_offsetOf (lead rest : Text) :
    (lead ++ rest).behind? (offsetOf (lead ++ rest) rest) = some rest := by
  have hcut : (lead ++ rest).cutAt? lead.byteLength = some (lead, rest) :=
    cutAt?_eq_some_iff.2 ⟨rfl, rfl⟩
  rw [behind?, offsetOf_append, hcut, Option.map_some]

/-- Between the offsets of two rests stands what the longer one has before the shorter one. -/
theorem slice?_offsetOf (lead piece rest : Text) :
    (lead ++ (piece ++ rest)).slice? (offsetOf (lead ++ (piece ++ rest)) (piece ++ rest))
      (offsetOf (lead ++ (piece ++ rest)) rest) = some piece := by
  have hpiece : (piece ++ rest).cutAt? piece.byteLength = some (piece, rest) :=
    cutAt?_eq_some_iff.2 ⟨rfl, rfl⟩
  have hbehind := behind?_offsetOf lead (piece ++ rest)
  rw [offsetOf_append] at hbehind
  unfold slice?
  rw [offsetOf_append, offsetOf_append_append, if_pos (Nat.le_add_right _ _), hbehind,
    Nat.add_sub_cancel_left, Option.bind_some, hpiece, Option.map_some]

theorem le_of_slice? {t piece : Text} {first last : Nat} (h : t.slice? first last = some piece) :
    first ≤ last := by
  unfold slice? at h
  by_cases hle : first ≤ last
  · exact hle
  · rw [if_neg hle] at h
    cases h

end Text

/-! ## What a state takes -/

/-- The offset behind one more character of a capture, if the capture may take it. Nothing can be
read where the offset is no place in the input. -/
def takeCharAt? (name input : Text) (offset : Nat) : Option (Option Nat) :=
  (input.behind? offset).map fun
    | [] => none
    | c :: _ => if c = '/' ∧ name ≠ remainderName then none else some (offset + c.utf8Size)

namespace Kind

/-- The offset behind the text that a state takes first, if it takes any. -/
def enterAt? (kind : Kind τ) (input : Text) (offset : Nat) : Option (Option Nat) :=
  match kind with
  | start => some (some offset)
  | accept _ => some (some offset)
  | fixed text => (input.behind? offset).map fun rest =>
      (text.isPrefixOf? rest).map fun _ => offset + text.byteLength
  | capture name => takeCharAt? name input offset

/-- The offset behind one more character, if the state can take one more. -/
def growAt? (kind : Kind τ) (input : Text) (offset : Nat) : Option (Option Nat) :=
  match kind with
  | capture name => takeCharAt? name input offset
  | _ => some none

end Kind

/-- By offset a capture takes the character that it takes of what is left. -/
theorem takeCharAt?_offsetOf (name lead rest : Text) :
    takeCharAt? name (lead ++ rest) (Text.offsetOf (lead ++ rest) rest) =
      some ((takeChar? name rest).map (Text.offsetOf (lead ++ rest))) := by
  rw [takeCharAt?, Text.behind?_offsetOf]
  cases rest with
  | nil => rfl
  | cons c left =>
    have hleft : Text.offsetOf (lead ++ c :: left) left = lead.byteLength + c.utf8Size :=
      Text.offsetOf_append_append lead [c] left
    simp only [Option.map_some, takeChar?]
    by_cases hslash : c = '/' ∧ name ≠ remainderName
    · rw [if_pos hslash, if_pos hslash, Option.map_none]
    · rw [if_neg hslash, if_neg hslash, Option.map_some, hleft, Text.offsetOf_append]

/-- By offset a state is entered as it is by what is left. -/
theorem Kind.enterAt?_offsetOf (kind : Kind τ) (lead rest : Text) :
    kind.enterAt? (lead ++ rest) (Text.offsetOf (lead ++ rest) rest) =
      some ((kind.enter? rest).map (Text.offsetOf (lead ++ rest))) := by
  cases kind with
  | start => rfl
  | accept tag => rfl
  | capture name => exact takeCharAt?_offsetOf name lead rest
  | fixed text =>
    rw [enterAt?, Text.behind?_offsetOf, enter?, Option.map_some]
    cases hprefix : text.isPrefixOf? rest with
    | none => rfl
    | some left =>
      obtain rfl := Text.isPrefixOf?_eq_some_iff.1 hprefix
      simp only [Option.map_some, Text.offsetOf_append, Text.offsetOf_append_append]

theorem Kind.growAt?_offsetOf (kind : Kind τ) (lead rest : Text) :
    kind.growAt? (lead ++ rest) (Text.offsetOf (lead ++ rest) rest) =
      some ((kind.grow? rest).map (Text.offsetOf (lead ++ rest))) := by
  cases kind with
  | capture name => exact takeCharAt?_offsetOf name lead rest
  | start => rfl
  | accept tag => rfl
  | fixed text => rfl

/-! ## Moves -/

/-- A frame with an offset into the input in place of what is left of it. -/
structure Mark where
  /-- The id of the state. -/
  state : Nat
  /-- How many of the edges of the state have been tried. -/
  edge : Nat
  /-- How many bytes of the input stand before the place behind the text of the state. -/
  offset : Nat
deriving Repr, DecidableEq

/-- The frame by offset. -/
def Frame.mark (input : Text) (frame : Frame) : Mark :=
  ⟨frame.state, frame.edge, input.offsetOf frame.rest⟩

namespace Automaton

/-- The stack after one move from the mark `top` over `below`. It fails if a state is not there or
an offset is no place in the input. -/
def moveAt? (automaton : Automaton τ) (input : Text) (top : Mark) (below : List Mark) :
    Option (List Mark) :=
  automaton.states[top.state]?.bind fun state =>
    if state.kind.isAccept then some below
    else match state.next[top.edge]? with
      | some target =>
        automaton.states[target]?.bind fun next =>
          (next.kind.enterAt? input top.offset).map fun
            | some offset => ⟨target, 0, offset⟩ :: { top with edge := top.edge + 1 } :: below
            | none => { top with edge := top.edge + 1 } :: below
      | none =>
        (state.kind.growAt? input top.offset).map fun
          | some offset => ⟨top.state, 0, offset⟩ :: below
          | none => below

/-- The captures on a stack, cut out of the input between the offsets. -/
def capturesAt? (automaton : Automaton τ) (input : Text) :
    (stack : List Mark) → Option (List (Text × Text))
  | top :: under :: below => do
    let made ← automaton.capturesAt? input (under :: below)
    let state ← automaton.states[top.state]?
    match state.kind with
    | .capture name => return made ++ [(name, ← input.slice? under.offset top.offset)]
    | _ => return made
  | _ => return []

/-- What a stack has found: something if its top is an end state and the input is used up. -/
def foundAt? (automaton : Automaton τ) (input : Text) (top : Mark) (below : List Mark) :
    Option (Option (Match τ)) :=
  automaton.states[top.state]?.bind fun state =>
    match state.kind with
    | .accept tag =>
      if top.offset = input.byteLength then
        (automaton.capturesAt? input (top :: below)).map fun captures =>
          some ⟨.ofCaptures captures, tag⟩
      else some none
    | _ => some none

end Automaton

end RoutePattern
