import RoutePattern.Proofs.Path.Normal

/-!
# Touching captures

Two captures of a path touch if only empty literals stand between them, so that nothing tells
where the first one ends. The test of a path names the first two captures that touch
(`adjacentAfter_none_eq_some_iff`), and passes a path without any
(`adjacentAfter_none_eq_none_iff`).
-/

namespace RoutePattern.Path

variable {τ : Type}

/-- The kinds are empty literals. -/
def IsGap (gap : Path τ) : Prop := ∀ kind ∈ gap, kind = .fixed []

/-- Some captures of the path touch. -/
def Touching (path : Path τ) : Prop :=
  ∃ before first gap second after,
    path = before ++ .capture first :: (gap ++ .capture second :: after) ∧ IsGap gap

/-- The captures `first` and `second` touch, and none before them do. -/
def FirstTouching (path : Path τ) (first second : Text) : Prop :=
  ∃ before gap after, path = before ++ .capture first :: (gap ++ .capture second :: after) ∧
    IsGap gap ∧ ¬ Touching (before ++ [.capture first])

/-! ## What the test does with a part of a path -/

/-- An empty literal changes nothing, a capture is tested, and any other kind parts what stands
before it from what follows. -/
theorem adjacentAfter_cons_cases (kind : Kind τ) :
    kind = .fixed [] ∨ (∃ name, kind = .capture name) ∨
      ∀ previous rest, adjacentAfter previous (kind :: rest) = adjacentAfter none rest := by
  cases kind with
  | start => exact .inr (.inr fun previous _ => by cases previous <;> rfl)
  | accept tag => exact .inr (.inr fun previous _ => by cases previous <;> rfl)
  | capture name => exact .inr (.inl ⟨name, rfl⟩)
  | fixed text =>
    cases text with
    | nil => exact .inl rfl
    | cons c text => exact .inr (.inr fun previous _ => by cases previous <;> rfl)

/-- The first captures that touch are found whatever stands behind them. -/
theorem adjacentAfter_append_of_some {previous : Option Text} {path : Path τ} {found : Text × Text}
    (h : adjacentAfter previous path = some found) (rest : Path τ) :
    adjacentAfter previous (path ++ rest) = some found := by
  induction path generalizing previous with
  | nil => cases h
  | cons kind path ih =>
    rw [List.cons_append]
    rcases adjacentAfter_cons_cases kind with rfl | ⟨name, rfl⟩ | hother
    · exact ih h
    · cases previous with
      | none => exact ih h
      | some first =>
        -- The two captures are found here, so nothing behind them counts.
        exact h
    · rw [hother] at h ⊢
      exact ih h

theorem adjacentAfter_append_capture {previous : Option Text} {path rest : Path τ} {first : Text}
    (h : adjacentAfter previous (path ++ [.capture first]) = none) :
    adjacentAfter previous (path ++ .capture first :: rest) = adjacentAfter (some first) rest := by
  induction path generalizing previous with
  | nil =>
    cases previous with
    | none => rfl
    | some other => cases h
  | cons kind path ih =>
    rw [List.cons_append] at h ⊢
    rcases adjacentAfter_cons_cases kind with rfl | ⟨name, rfl⟩ | hother
    · exact ih h
    · cases previous with
      | none => exact ih h
      | some other => cases h
    · rw [hother] at h ⊢
      exact ih h

/-- What has no captures changes nothing behind a path. -/
theorem adjacentAfter_append_of_no_capture {rest : Path τ} (h : ∀ name, .capture name ∉ rest)
    (previous : Option Text) (path : Path τ) :
    adjacentAfter previous (path ++ rest) = adjacentAfter previous path := by
  induction path generalizing previous with
  | nil =>
    rw [List.nil_append]
    induction rest generalizing previous with
    | nil => rfl
    | cons kind rest ih =>
      have hrest (name : Text) : .capture name ∉ rest :=
        fun hmem => h name (List.mem_cons_of_mem _ hmem)
      rcases adjacentAfter_cons_cases kind with rfl | ⟨name, rfl⟩ | hother
      · exact ih hrest previous
      · exact absurd List.mem_cons_self (h name)
      · exact (hother previous rest).trans (ih hrest none)
  | cons kind path ih =>
    rw [List.cons_append]
    rcases adjacentAfter_cons_cases kind with rfl | ⟨name, rfl⟩ | hother
    · exact ih previous
    · cases previous with
      | none => exact ih (some name)
      | some first => rfl
    · rw [hother, hother, ih]

/-- A text that is not empty parts what stands before it from what follows. -/
theorem adjacentAfter_append_fixed (c : Char) (text : Text) (rest : Path τ)
    (previous : Option Text) (path : Path τ) :
    adjacentAfter previous (path ++ .fixed (c :: text) :: rest) =
      (adjacentAfter previous path).or (adjacentAfter none rest) := by
  induction path generalizing previous with
  | nil => cases previous <;> rfl
  | cons kind path ih =>
    rw [List.cons_append]
    rcases adjacentAfter_cons_cases kind with rfl | ⟨name, rfl⟩ | hother
    · exact ih previous
    · cases previous with
      | none => exact ih (some name)
      | some first => rfl
    · rw [hother, hother, ih]

theorem adjacentAfter_gap {first second : Text} {gap : Path τ} (hgap : IsGap gap)
    (after : Path τ) :
    adjacentAfter (some first) (gap ++ .capture second :: after) = some (first, second) := by
  induction gap with
  | nil => rfl
  | cons kind gap ih =>
    obtain ⟨rfl, hrest⟩ := List.forall_mem_cons.1 hgap
    exact ih hrest

/-- What the test finds is the capture before the path with one of the path, or two captures of the
path, and before these it finds nothing. -/
theorem exists_of_adjacentAfter {previous : Option Text} {path : Path τ} {first second : Text}
    (h : adjacentAfter previous path = some (first, second)) :
    (previous = some first ∧ ∃ gap after, path = gap ++ .capture second :: after ∧ IsGap gap) ∨
      ∃ before gap after, path = before ++ .capture first :: (gap ++ .capture second :: after) ∧
        IsGap gap ∧ adjacentAfter previous (before ++ [.capture first]) = none := by
  induction path generalizing previous with
  | nil => cases h
  | cons kind path ih =>
    rcases adjacentAfter_cons_cases kind with rfl | ⟨name, rfl⟩ | hother
    · rcases ih h with ⟨hprevious, gap, after, rfl, hgap⟩ |
        ⟨before, gap, after, rfl, hgap, hbefore⟩
      · exact .inl ⟨hprevious, .fixed [] :: gap, after, rfl, List.forall_mem_cons.2 ⟨rfl, hgap⟩⟩
      · exact .inr ⟨.fixed [] :: before, gap, after, rfl, hgap, hbefore⟩
    · cases previous with
      | none =>
        rcases ih h with ⟨hname, gap, after, rfl, hgap⟩ | ⟨before, gap, after, rfl, hgap, hbefore⟩
        · obtain rfl := Option.some.inj hname
          exact .inr ⟨[], gap, after, rfl, hgap, rfl⟩
        · exact .inr ⟨.capture name :: before, gap, after, rfl, hgap, hbefore⟩
      | some other =>
        obtain ⟨rfl, rfl⟩ := Prod.mk.inj (Option.some.inj h)
        exact .inl ⟨rfl, [], path, rfl, by simp [IsGap]⟩
    · rw [hother] at h
      rcases ih h with ⟨hnone, -⟩ | ⟨before, gap, after, rfl, hgap, hbefore⟩
      · cases hnone
      · refine .inr ⟨kind :: before, gap, after, rfl, hgap, ?_⟩
        rw [List.cons_append, hother, hbefore]

/-! ## What the test finds -/

theorem adjacentAfter_none_eq_none_iff {path : Path τ} :
    adjacentAfter none path = none ↔ ¬ Touching path := by
  constructor
  · rintro h ⟨before, first, gap, second, after, rfl, hgap⟩
    have hbefore : adjacentAfter none (before ++ [.capture first]) = none := by
      rw [Option.eq_none_iff_forall_ne_some]
      intro found hfound
      have hwhole := adjacentAfter_append_of_some hfound (gap ++ .capture second :: after)
      rw [List.append_assoc, List.singleton_append, h] at hwhole
      cases hwhole
    rw [adjacentAfter_append_capture hbefore, adjacentAfter_gap hgap] at h
    cases h
  · intro h
    rw [Option.eq_none_iff_forall_ne_some]
    rintro ⟨first, second⟩ hfound
    rcases exists_of_adjacentAfter hfound with ⟨hnone, -⟩ | ⟨before, gap, after, hpath, hgap, -⟩
    · cases hnone
    · exact h ⟨before, first, gap, second, after, hpath, hgap⟩

theorem adjacentAfter_none_eq_some_iff {path : Path τ} {first second : Text} :
    adjacentAfter none path = some (first, second) ↔ FirstTouching path first second := by
  constructor
  · intro h
    rcases exists_of_adjacentAfter h with ⟨hnone, -⟩ | ⟨before, gap, after, hpath, hgap, hbefore⟩
    · cases hnone
    · exact ⟨before, gap, after, hpath, hgap, adjacentAfter_none_eq_none_iff.1 hbefore⟩
  · rintro ⟨before, gap, after, rfl, hgap, hbefore⟩
    rw [adjacentAfter_append_capture (adjacentAfter_none_eq_none_iff.2 hbefore),
      adjacentAfter_gap hgap]

/-- A path without touching captures passes the test. -/
theorem check_eq_ok_iff {path : Path τ} : path.check = .ok () ↔ ¬ Touching path := by
  rw [← adjacentAfter_none_eq_none_iff, check]
  split
  · next h => simp [h]
  · next h => simp [h]

/-- A path is refused for the first captures that touch. -/
theorem check_eq_error_iff {path : Path τ} {e : PatternError} : path.check = .error e ↔
    ∃ first second, FirstTouching path first second ∧ e = .ambiguous first second := by
  simp only [← adjacentAfter_none_eq_some_iff]
  rw [check]
  split
  · next first second h => simp [h, eq_comm]
  · next h => simp [h]

theorem touching_iff_exists {path : Path τ} :
    Touching path ↔ ∃ first second, FirstTouching path first second := by
  simp only [← adjacentAfter_none_eq_some_iff]
  rw [← not_iff_not, ← adjacentAfter_none_eq_none_iff, Option.eq_none_iff_forall_ne_some]
  simp

end RoutePattern.Path
