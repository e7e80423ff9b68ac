import RoutePattern.Proofs.Path.Normal

/-!
# Paths with one end

`Path.Ends` is the shape of the paths that an automaton is made of: the last state, and no other,
is an end state. It is what `endsOnce` tests (`endsOnce_iff`), and a path has it together with its
normal form and with every change of its tag.
-/

namespace RoutePattern

variable {τ υ : Type}

namespace Path

/-- The last state of the path is an end state with this tag, and no other state is one. -/
inductive Ends : Path τ → τ → Prop
  | last (tag : τ) : Ends [.accept tag] tag
  | cons {kind : Kind τ} {path : Path τ} {tag : τ} (hkind : kind.isAccept = false)
      (hpath : Ends path tag) : Ends (kind :: path) tag

/-- The tag of the state that a path ends in. -/
def tag? (path : Path τ) : Option τ :=
  match path.getLast? with
  | some (.accept tag) => some tag
  | _ => none

/-- A path with one end stops there. -/
theorem Ends.getLast? {path : Path τ} {tag : τ} (h : path.Ends tag) :
    path.getLast? = some (.accept tag) := by
  induction h with
  | last tag => rfl
  | cons _ _ ih =>
    rw [List.getLast?_cons, ih]
    rfl

theorem Ends.tag? {path : Path τ} {tag : τ} (h : path.Ends tag) : path.tag? = some tag := by
  simp [Path.tag?, h.getLast?]

theorem Ends.length_pos {path : Path τ} {tag : τ} (h : path.Ends tag) : 0 < path.length := by
  cases h <;> simp

/-- Behind every other state stands one more. -/
theorem Ends.exists_getElem?_succ {path : Path τ} {tag : τ} {place : Nat} {kind : Kind τ}
    (h : path.Ends tag) (hkind : path[place]? = some kind) (hother : kind.isAccept = false) :
    ∃ next, path[place + 1]? = some next := by
  induction h generalizing place with
  | last tag =>
    cases place with
    | zero =>
      obtain rfl := Option.some.inj hkind
      cases hother
    | succ place => cases hkind
  | @cons first path tag _ hpath ih =>
    cases place with
    | zero => exact ⟨_, List.getElem?_eq_getElem hpath.length_pos⟩
    | succ place => exact ih hkind

/-- The test asks that the first end state is the last state of the path. -/
theorem endsOnce_iff {path : Path τ} : path.endsOnce = true ↔ ∃ tag, path.Ends tag := by
  rw [endsOnce, beq_iff_eq]
  induction path with
  | nil =>
    constructor
    · intro h
      simp at h
    · rintro ⟨tag, h⟩
      cases h
  | cons kind path ih =>
    cases hk : kind.isAccept with
    | true =>
      -- The first state is an end state, so it has to be the last one as well.
      obtain ⟨tag, rfl⟩ : ∃ tag, kind = .accept tag := by
        cases kind <;> simp_all [Kind.isAccept]
      simp only [List.findIdx?_cons, Kind.isAccept, ↓reduceIte, Option.some.injEq,
        List.length_cons, Nat.add_sub_cancel]
      constructor
      · intro h
        obtain rfl := List.length_eq_zero_iff.1 h.symm
        exact ⟨tag, .last tag⟩
      · rintro ⟨other, h⟩
        cases h with
        | last => rfl
        | cons hkind _ => simp [Kind.isAccept] at hkind
    | false =>
      simp only [List.findIdx?_cons, hk, Bool.false_eq_true, ↓reduceIte, List.length_cons,
        Nat.add_sub_cancel]
      constructor
      · intro h
        have hpos : 0 < path.length := by
          cases path with
          | nil => simp at h
          | cons => simp
        obtain ⟨index, hindex, hi⟩ := Option.map_eq_some_iff.1 h
        obtain ⟨tag, ht⟩ := ih.1 (by rw [hindex, ← hi]; rfl)
        exact ⟨tag, .cons hk ht⟩
      · rintro ⟨tag, h⟩
        cases h with
        | last => simp [Kind.isAccept] at hk
        | cons _ ht =>
          have := ht.length_pos
          rw [ih.2 ⟨tag, ht⟩, Option.map_some]
          congr 1
          omega

/-! ## What keeps the end -/

/-- Putting a state in front that is no end keeps the end of the path. -/
theorem Ends.prepend {kind : Kind τ} {path : Path τ} {tag : τ} (hkind : kind.isAccept = false)
    (h : path.Ends tag) : (prepend kind path).Ends tag := by
  rcases prepend_cases kind path with ⟨-, hp⟩ | ⟨c, text, next, others, -, rfl, hp⟩ | hp
  · rw [hp]
    exact h
  · rw [hp]
    cases h with
    | cons _ hothers => exact .cons rfl hothers
  · rw [hp]
    exact .cons hkind h

/-- The normal form has the end of the path. -/
theorem Ends.normal {path : Path τ} {tag : τ} (h : path.Ends tag) : path.normal.Ends tag := by
  induction h with
  | last tag => exact .last tag
  | cons hkind _ ih =>
    rw [normal_cons]
    exact ih.prepend hkind

theorem Ends.map {path : Path τ} {tag : τ} (h : path.Ends tag) (f : τ → υ) :
    Path.Ends (path.map (Kind.map f)) (f tag) := by
  induction h with
  | last tag => exact .last (f tag)
  | @cons kind path tag hkind _ ih =>
    refine .cons ?_ ih
    cases kind <;> simp_all [Kind.isAccept, Kind.map]

end Path

end RoutePattern
