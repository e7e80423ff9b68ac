import Mathlib.Data.List.Forall2
import RoutePattern.Path.Normal

/-!
# Cuts of an input along a path

A path asks for consecutive pieces of the input: of a literal state its text, of a capture a value
that its name may hold. `Path.Cut` says which lists of pieces a path allows, and `Path.cuts` lists
them, a capture growing one character at a time.

* `mem_cuts_iff`: the list holds exactly the cuts.
* `pairwise_cuts`: the lengths of the captures ascend lexicographically along the list, so no cut
  comes twice (`nodup_cuts`).

Where the pieces do not matter, `Path.Reads` keeps of a cut only its captures.
-/

namespace RoutePattern

variable {τ : Type}

/-- A capture of that name may hold `value`: it is not empty, and only the remainder may have
slashes. -/
def IsValue (name value : Text) : Prop := value ≠ [] ∧ (name = remainderName ∨ '/' ∉ value)

namespace Kind

/-- Whether a state takes a piece of the input. -/
def isTaker : Kind τ → Bool
  | fixed _ => true
  | capture _ => true
  | _ => false

/-- `piece` is what the state asks for. -/
def Takes : Kind τ → Text → Prop
  | fixed text, piece => piece = text
  | capture name, piece => IsValue name piece
  | _, _ => False

/-- The capture of a state that took `piece`. -/
def captured? : Kind τ → Text → Option (Text × Text)
  | capture name, piece => some (name, piece)
  | _, _ => none

end Kind

namespace Path

/-- The states of a path that take a piece of the input. -/
def takers (path : Path τ) : Path τ := path.filter Kind.isTaker

/-- `pieces` cut the input into what the states of the path ask for, one after the other. -/
def Cut (path : Path τ) (input : Text) (pieces : List Text) : Prop :=
  List.Forall₂ Kind.Takes path.takers pieces ∧ pieces.flatten = input

/-- The captures of a cut in the order of the path. -/
def captured (path : Path τ) (pieces : List Text) : List (Text × Text) :=
  (path.takers.zip pieces).filterMap fun (kind, piece) => kind.captured? piece

/-- The lengths of the captures of a cut. -/
def captureLengths (path : Path τ) (pieces : List Text) : List Nat :=
  (path.captured pieces).map fun capture => capture.2.length

/-- The beginnings of the input that a capture may hold, the shortest first, each with what stands
behind it. -/
def values (name : Text) : Text → List (Text × Text)
  | [] => []
  | c :: rest =>
    if c = '/' ∧ name ≠ remainderName then []
    else ([c], rest) :: (values name rest).map fun (value, left) => (c :: value, left)

/-- The cuts of the input, those with a shorter first capture first. -/
def cuts : Path τ → Text → List (List Text)
  | [], input => if input = [] then [[]] else []
  | .fixed text :: rest, input =>
    match text.isPrefixOf? input with
    | some left => (cuts rest left).map (text :: ·)
    | none => []
  | .capture name :: rest, input =>
    (values name input).flatMap fun (value, left) => (cuts rest left).map (value :: ·)
  | _ :: rest, input => cuts rest input

/-! ## The captures of a cut -/

@[simp] theorem takers_nil : takers ([] : Path τ) = [] := rfl

@[simp] theorem takers_fixed (text : Text) (path : Path τ) :
    takers (.fixed text :: path) = .fixed text :: path.takers := rfl

@[simp] theorem takers_capture (name : Text) (path : Path τ) :
    takers (.capture name :: path) = .capture name :: path.takers := rfl

@[simp] theorem takers_start (path : Path τ) : takers (.start :: path) = path.takers := rfl

@[simp] theorem takers_accept (tag : τ) (path : Path τ) :
    takers (.accept tag :: path) = path.takers := rfl

@[simp] theorem captured_nil (pieces : List Text) : captured ([] : Path τ) pieces = [] := rfl

@[simp] theorem captured_fixed (text piece : Text) (path : Path τ) (pieces : List Text) :
    captured (.fixed text :: path) (piece :: pieces) = captured path pieces := rfl

@[simp] theorem captured_capture (name piece : Text) (path : Path τ) (pieces : List Text) :
    captured (.capture name :: path) (piece :: pieces) =
      (name, piece) :: captured path pieces := rfl

@[simp] theorem captured_start (path : Path τ) (pieces : List Text) :
    captured (.start :: path) pieces = captured path pieces := rfl

@[simp] theorem captured_accept (tag : τ) (path : Path τ) (pieces : List Text) :
    captured (.accept tag :: path) pieces = captured path pieces := rfl

/-! ## A cut from its first state on -/

theorem cut_nil_iff {input : Text} {pieces : List Text} :
    Cut ([] : Path τ) input pieces ↔ input = [] ∧ pieces = [] := by
  rw [Cut, takers_nil, List.forall₂_nil_left_iff]
  constructor
  · rintro ⟨rfl, rfl⟩
    exact ⟨rfl, rfl⟩
  · rintro ⟨rfl, rfl⟩
    exact ⟨rfl, rfl⟩

theorem cut_start_iff {path : Path τ} {input : Text} {pieces : List Text} :
    Cut (.start :: path) input pieces ↔ path.Cut input pieces := Iff.rfl

theorem cut_accept_iff {tag : τ} {path : Path τ} {input : Text} {pieces : List Text} :
    Cut (.accept tag :: path) input pieces ↔ path.Cut input pieces := Iff.rfl

/-- A literal state takes its own text. -/
theorem cut_fixed_iff {text : Text} {path : Path τ} {input : Text} {pieces : List Text} :
    Cut (.fixed text :: path) input pieces ↔
      ∃ left others, input = text ++ left ∧ pieces = text :: others ∧ path.Cut left others := by
  rw [Cut, takers_fixed, List.forall₂_cons_left_iff]
  constructor
  · rintro ⟨⟨piece, others, rfl, hothers, rfl⟩, rfl⟩
    exact ⟨others.flatten, others, rfl, rfl, hothers, rfl⟩
  · rintro ⟨left, others, rfl, rfl, hothers, rfl⟩
    exact ⟨⟨text, others, rfl, hothers, rfl⟩, rfl⟩

/-- A capture takes any value of its name at the start of the input. -/
theorem cut_capture_iff {name : Text} {path : Path τ} {input : Text} {pieces : List Text} :
    Cut (.capture name :: path) input pieces ↔
      ∃ value left others, input = value ++ left ∧ pieces = value :: others ∧
        IsValue name value ∧ path.Cut left others := by
  rw [Cut, takers_capture, List.forall₂_cons_left_iff]
  constructor
  · rintro ⟨⟨value, others, hvalue, hothers, rfl⟩, rfl⟩
    exact ⟨value, others.flatten, others, rfl, rfl, hvalue, hothers, rfl⟩
  · rintro ⟨value, left, others, rfl, rfl, hvalue, hothers, rfl⟩
    exact ⟨⟨value, others, hvalue, hothers, rfl⟩, rfl⟩

/-! ## The list holds exactly the cuts -/

/-- A value is a character that its name allows, alone or before another value. -/
theorem isValue_cons_iff {name value : Text} {c : Char} :
    IsValue name (c :: value) ↔
      ¬ (c = '/' ∧ name ≠ remainderName) ∧ (value = [] ∨ IsValue name value) := by
  unfold IsValue
  by_cases hname : name = remainderName
  · have hrest : value = [] ∨ value ≠ [] := em (value = [])
    simp [hname, hrest]
  · by_cases hvalue : value = []
    · simp [hname, hvalue, eq_comm]
    · simp [hname, hvalue, eq_comm]

/-- The values listed are those that the name may hold, each with the rest of the input. -/
theorem mem_values_iff {name input value left : Text} :
    (value, left) ∈ values name input ↔ input = value ++ left ∧ IsValue name value := by
  induction input generalizing value with
  | nil =>
    constructor
    · intro h
      simp [values] at h
    · rintro ⟨h, hv⟩
      exact absurd (List.append_eq_nil_iff.1 h.symm).1 hv.1
  | cons c input ih =>
    cases value with
    | nil =>
      rw [values]
      split <;> simp [IsValue]
    | cons d value =>
      rw [values, isValue_cons_iff, List.cons_append, List.cons_eq_cons]
      split
      · -- No value goes past a slash, unless it is the remainder.
        next hslash =>
        refine iff_of_false (by simp) ?_
        rintro ⟨⟨rfl, -⟩, hno, -⟩
        exact hno hslash
      · next hslash =>
        simp only [List.mem_cons, Prod.mk.injEq, List.cons.injEq, List.mem_map, Prod.exists]
        constructor
        · rintro (⟨⟨rfl, rfl⟩, rfl⟩ | ⟨value', left', h, ⟨rfl, rfl⟩, rfl⟩)
          · exact ⟨⟨rfl, rfl⟩, hslash, .inl rfl⟩
          · obtain ⟨rfl, hv⟩ := ih.1 h
            exact ⟨⟨rfl, rfl⟩, hslash, .inr hv⟩
        · rintro ⟨⟨rfl, rfl⟩, -, rfl | hv⟩
          · exact .inl ⟨⟨rfl, rfl⟩, rfl⟩
          · exact .inr ⟨_, left, ih.2 ⟨rfl, hv⟩, ⟨rfl, rfl⟩, rfl⟩

/-- The pieces listed are those that cut the input. -/
theorem mem_cuts_iff {path : Path τ} {input : Text} {pieces : List Text} :
    pieces ∈ path.cuts input ↔ path.Cut input pieces := by
  induction path generalizing input pieces with
  | nil =>
    rw [cut_nil_iff, cuts]
    split <;> simp_all
  | cons kind path ih =>
    cases kind with
    | start => exact ih
    | accept tag => exact ih
    | fixed text =>
      rw [cut_fixed_iff, cuts]
      simp only [← Text.isPrefixOf?_eq_some_iff]
      cases text.isPrefixOf? input with
      | none => simp
      | some left =>
        simp only [List.mem_map, ih, Option.some.injEq]
        constructor
        · rintro ⟨others, hothers, rfl⟩
          exact ⟨left, others, rfl, rfl, hothers⟩
        · rintro ⟨_, others, rfl, rfl, hothers⟩
          exact ⟨others, hothers, rfl⟩
    | capture name =>
      rw [cut_capture_iff, cuts]
      simp only [List.mem_flatMap, List.mem_map, Prod.exists, mem_values_iff, ih]
      constructor
      · rintro ⟨value, left, ⟨rfl, hvalue⟩, others, hothers, rfl⟩
        exact ⟨value, left, others, rfl, rfl, hvalue, hothers⟩
      · rintro ⟨value, left, others, rfl, rfl, hvalue, hothers⟩
        exact ⟨value, left, ⟨rfl, hvalue⟩, others, hothers, rfl⟩

/-! ## Their order -/

/-- A value is longer than those before it in the list. -/
theorem pairwise_values (name input : Text) :
    (values name input).Pairwise fun a b => a.1.length < b.1.length := by
  induction input with
  | nil => exact .nil
  | cons c input ih =>
    rw [values]
    split
    · exact .nil
    · refine List.pairwise_cons.2 ⟨?_, ?_⟩
      · intro longer h
        obtain ⟨⟨value, left⟩, hv, rfl⟩ := List.mem_map.1 h
        have := List.length_pos_iff.2 (mem_values_iff.1 hv).2.1
        simpa using this
      · exact List.pairwise_map.2 (ih.imp fun h => by simpa using h)

/-- Along the cuts the lengths of the captures ascend, those of the first captures first. -/
theorem pairwise_cuts (path : Path τ) (input : Text) :
    (path.cuts input).Pairwise fun a b => path.captureLengths a < path.captureLengths b := by
  induction path generalizing input with
  | nil =>
    rw [cuts]
    split <;> simp
  | cons kind path ih =>
    cases kind with
    | start => exact ih input
    | accept tag => exact ih input
    | fixed text =>
      rw [cuts]
      split
      · next left _ => exact List.pairwise_map.2 (ih left)
      · exact .nil
    | capture name =>
      rw [cuts]
      refine List.pairwise_flatMap.2 ⟨?_, ?_⟩
      · -- Two cuts with the same first value compare by the others.
        intro entry _
        refine List.pairwise_map.2 ((ih entry.2).imp ?_)
        intro a b h
        exact List.cons_lt_cons_iff.2 (.inr ⟨rfl, h⟩)
      · -- Of two first values the shorter one decides, whatever the others are.
        refine (pairwise_values name input).imp ?_
        intro a b h first hf second hs
        obtain ⟨_, -, rfl⟩ := List.mem_map.1 hf
        obtain ⟨_, -, rfl⟩ := List.mem_map.1 hs
        exact List.cons_lt_cons_iff.2 (.inl h)

/-- No cut comes twice, since the lengths of its captures tell it from the others. -/
theorem nodup_cuts (path : Path τ) (input : Text) : (path.cuts input).Nodup := by
  refine (pairwise_cuts path input).imp ?_
  intro a b h he
  subst he
  exact List.lt_irrefl _ h

/-! ## Captures without pieces -/

/-- The input has a cut along the path with these captures. -/
def Reads (path : Path τ) (input : Text) (captures : List (Text × Text)) : Prop :=
  ∃ pieces, path.Cut input pieces ∧ path.captured pieces = captures

theorem reads_nil_iff {input : Text} {captures : List (Text × Text)} :
    Reads ([] : Path τ) input captures ↔ input = [] ∧ captures = [] := by
  simp [Reads, cut_nil_iff, eq_comm]

theorem reads_accept_iff {tag : τ} {path : Path τ} {input : Text}
    {captures : List (Text × Text)} :
    Reads (.accept tag :: path) input captures ↔ path.Reads input captures := Iff.rfl

theorem reads_fixed_iff {text : Text} {path : Path τ} {input : Text}
    {captures : List (Text × Text)} :
    Reads (.fixed text :: path) input captures ↔
      ∃ left, input = text ++ left ∧ path.Reads left captures := by
  simp only [Reads, cut_fixed_iff]
  constructor
  · rintro ⟨_, ⟨left, others, rfl, rfl, hcut⟩, rfl⟩
    exact ⟨left, rfl, others, hcut, rfl⟩
  · rintro ⟨left, rfl, others, hcut, rfl⟩
    exact ⟨text :: others, ⟨left, others, rfl, rfl, hcut⟩, rfl⟩

/-- The first capture of a path holds a value at the start of the input. -/
theorem reads_capture_iff {name : Text} {path : Path τ} {input : Text}
    {captures : List (Text × Text)} :
    Reads (.capture name :: path) input captures ↔
      ∃ value left others, input = value ++ left ∧ captures = (name, value) :: others ∧
        IsValue name value ∧ path.Reads left others := by
  simp only [Reads, cut_capture_iff]
  constructor
  · rintro ⟨_, ⟨value, left, pieces, rfl, rfl, hvalue, hcut⟩, rfl⟩
    exact ⟨value, left, path.captured pieces, rfl, rfl, hvalue, pieces, hcut, rfl⟩
  · rintro ⟨value, left, _, rfl, rfl, hvalue, pieces, hcut, rfl⟩
    exact ⟨value :: pieces, ⟨value, left, pieces, rfl, rfl, hvalue, hcut⟩, rfl⟩

/-- What a path reads is what its first part reads and then what the rest reads. -/
theorem reads_append_iff {first second : Path τ} {input : Text}
    {captures : List (Text × Text)} :
    Reads (first ++ second) input captures ↔
      ∃ lead left made others, input = lead ++ left ∧ captures = made ++ others ∧
        first.Reads lead made ∧ second.Reads left others := by
  induction first generalizing input captures with
  | nil => simp [reads_nil_iff]
  | cons kind first ih =>
    cases kind with
    | start => exact ih
    | accept tag => exact ih
    | fixed text =>
      simp only [List.cons_append, reads_fixed_iff, ih]
      constructor
      · rintro ⟨_, rfl, lead, left, made, others, rfl, rfl, hfirst, hsecond⟩
        exact ⟨text ++ lead, left, made, others, by simp, rfl, ⟨lead, rfl, hfirst⟩, hsecond⟩
      · rintro ⟨_, left, made, others, rfl, rfl, ⟨lead, rfl, hfirst⟩, hsecond⟩
        exact ⟨lead ++ left, by simp, lead, left, made, others, rfl, rfl, hfirst, hsecond⟩
    | capture name =>
      simp only [List.cons_append, reads_capture_iff, ih]
      constructor
      · rintro ⟨value, _, _, rfl, rfl, hvalue, lead, left, made, others, rfl, rfl, hfirst, hsecond⟩
        exact ⟨value ++ lead, left, (name, value) :: made, others, by simp, rfl,
          ⟨value, lead, made, rfl, rfl, hvalue, hfirst⟩, hsecond⟩
      · rintro ⟨_, left, _, others, rfl, rfl,
          ⟨value, lead, made, rfl, rfl, hvalue, hfirst⟩, hsecond⟩
        exact ⟨value, lead ++ left, made ++ others, by simp, rfl, hvalue, lead, left, made, others,
          rfl, rfl, hfirst, hsecond⟩

end Path

end RoutePattern
