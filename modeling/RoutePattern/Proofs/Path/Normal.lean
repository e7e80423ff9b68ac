import RoutePattern.Proofs.Path.Cuts

/-!
# Normal forms of paths

`Path.normal` can be read from the end of a path: each state is put before the normal form of what
follows it, where an empty literal vanishes and a literal joins a literal (`normal_cons`). From
this follow, by one case analysis of `prepend` each:

* `isNormal_normal`, `normal_of_isNormal`: the result has no empty literal and no two neighbouring
  literals, and such a path is its own normal form;
* `check_normal`: touching captures are the same before and after;
* `reads_normal_iff`: the normal form reads what the path reads.
-/

namespace RoutePattern.Path

variable {τ υ : Type}

/-- A state put before a normal path. -/
def prepend : Kind τ → Path τ → Path τ
  | .fixed [], path => path
  | .fixed (c :: text), .fixed next :: others => .fixed (c :: text ++ next) :: others
  | kind, path => kind :: path

@[simp] theorem normal_nil : normal ([] : Path τ) = [] := rfl

/-- The normal form of a path is that of the rest with the first state put before it. -/
theorem normal_cons (kind : Kind τ) (path : Path τ) :
    normal (kind :: path) = prepend kind path.normal := by
  cases kind with
  | start => rfl
  | accept tag => rfl
  | capture name => rfl
  | fixed text =>
    cases text with
    | nil => rfl
    | cons c text =>
      have hkeep : withoutEmpty (.fixed (c :: text) :: path) =
          .fixed (c :: text) :: path.withoutEmpty := rfl
      simp only [normal, hkeep, joined]
      cases joined path.withoutEmpty with
      | nil => rfl
      | cons next others => cases next <;> rfl

/-- What a state does when it is put before a path: an empty literal vanishes, another literal
joins a literal, and any other state stays apart. -/
theorem prepend_cases (kind : Kind τ) (path : Path τ) :
    (kind = .fixed [] ∧ prepend kind path = path) ∨
    (∃ c text next others, kind = .fixed (c :: text) ∧ path = .fixed next :: others ∧
      prepend kind path = .fixed (c :: text ++ next) :: others) ∨
    prepend kind path = kind :: path := by
  cases kind with
  | start => exact .inr (.inr rfl)
  | accept tag => exact .inr (.inr rfl)
  | capture name => exact .inr (.inr rfl)
  | fixed text =>
    cases text with
    | nil => exact .inl ⟨rfl, rfl⟩
    | cons c text =>
      cases path with
      | nil => exact .inr (.inr rfl)
      | cons next others =>
        cases next with
        | fixed next => exact .inr (.inl ⟨c, text, next, others, rfl, rfl, rfl⟩)
        | start => exact .inr (.inr rfl)
        | accept tag => exact .inr (.inr rfl)
        | capture name => exact .inr (.inr rfl)

/-! ## The normal form is normal -/

/-- No literal of the path is empty or stands before another literal. -/
def IsNormal : Path τ → Prop
  | [] => True
  | .fixed text :: path =>
    text ≠ [] ∧ (∀ next others, path ≠ .fixed next :: others) ∧ IsNormal path
  | _ :: path => IsNormal path

/-- A state put before a normal path gives a normal path. -/
theorem isNormal_prepend (kind : Kind τ) {path : Path τ} (h : path.IsNormal) :
    (prepend kind path).IsNormal := by
  cases kind with
  | start => exact h
  | accept tag => exact h
  | capture name => exact h
  | fixed text =>
    cases text with
    | nil => exact h
    | cons c text =>
      cases path with
      | nil => simp [prepend, IsNormal]
      | cons next others => cases next <;> simp_all [prepend, IsNormal]

/-- The normal form has no empty literal and no two neighbouring literals. -/
theorem isNormal_normal (path : Path τ) : path.normal.IsNormal := by
  induction path with
  | nil => trivial
  | cons kind path ih =>
    rw [normal_cons]
    exact isNormal_prepend kind ih

/-- A path without these is its own normal form. -/
theorem normal_of_isNormal {path : Path τ} (h : path.IsNormal) : path.normal = path := by
  induction path with
  | nil => rfl
  | cons kind path ih =>
    have hpath : IsNormal path := by
      cases kind <;> simp_all [IsNormal]
    rw [normal_cons, ih hpath]
    rcases prepend_cases kind path with ⟨rfl, -⟩ | ⟨c, text, next, others, rfl, rfl, -⟩ | hp
    · exact absurd rfl h.1
    · exact absurd rfl (h.2.1 next others)
    · exact hp

@[simp] theorem normal_normal (path : Path τ) : path.normal.normal = path.normal :=
  normal_of_isNormal (isNormal_normal path)

/-! ## What the normal form keeps -/

theorem adjacentAfter_prepend (previous : Option Text) (kind : Kind τ) (path : Path τ) :
    adjacentAfter previous (prepend kind path) = adjacentAfter previous (kind :: path) := by
  rcases prepend_cases kind path with ⟨rfl, h⟩ | ⟨c, text, next, others, rfl, rfl, h⟩ | h
  · rw [h]
    cases previous <;> rfl
  · rw [h]
    cases next <;> cases previous <;> simp [adjacentAfter]
  · rw [h]

theorem adjacentAfter_cons_congr (kind : Kind τ) {left right : Path τ}
    (h : ∀ previous, adjacentAfter previous left = adjacentAfter previous right)
    (previous : Option Text) :
    adjacentAfter previous (kind :: left) = adjacentAfter previous (kind :: right) := by
  cases kind with
  | start => cases previous <;> simp [adjacentAfter, h]
  | accept tag => cases previous <;> simp [adjacentAfter, h]
  | capture name => cases previous <;> simp [adjacentAfter, h]
  | fixed text => cases text <;> cases previous <;> simp [adjacentAfter, h]

/-- Captures touch in the normal form just where they touch in the path. -/
theorem adjacentAfter_normal (previous : Option Text) (path : Path τ) :
    adjacentAfter previous path.normal = adjacentAfter previous path := by
  induction path generalizing previous with
  | nil => rfl
  | cons kind path ih =>
    rw [normal_cons, adjacentAfter_prepend]
    exact adjacentAfter_cons_congr kind ih previous

theorem check_normal (path : Path τ) : path.normal.check = path.check := by
  rw [check, adjacentAfter_normal, check]

/-- Joining literals changes nothing about what is read. -/
theorem reads_prepend_iff {kind : Kind τ} {path : Path τ} {input : Text}
    {captures : List (Text × Text)} :
    (prepend kind path).Reads input captures ↔ Reads (kind :: path) input captures := by
  rcases prepend_cases kind path with ⟨rfl, h⟩ | ⟨c, text, next, others, rfl, rfl, h⟩ | h
  · simp [h, reads_fixed_iff]
  · simp [h, reads_fixed_iff]
  · rw [h]

theorem reads_cons_congr (kind : Kind τ) {left right : Path τ}
    (h : ∀ input captures, left.Reads input captures ↔ right.Reads input captures)
    {input : Text} {captures : List (Text × Text)} :
    Reads (kind :: left) input captures ↔ Reads (kind :: right) input captures := by
  cases kind with
  | start => exact h input captures
  | accept tag => exact h input captures
  | fixed text => simp only [reads_fixed_iff, h]
  | capture name => simp only [reads_capture_iff, h]

/-- The normal form of a path reads what the path reads. -/
theorem reads_normal_iff {path : Path τ} {input : Text} {captures : List (Text × Text)} :
    path.normal.Reads input captures ↔ path.Reads input captures := by
  induction path generalizing input captures with
  | nil => rfl
  | cons kind path ih =>
    rw [normal_cons, reads_prepend_iff]
    exact reads_cons_congr kind fun _ _ => ih

theorem mem_prepend_iff {kind other : Kind τ} {path : Path τ} (h : ∀ text, other ≠ .fixed text) :
    other ∈ prepend kind path ↔ other ∈ kind :: path := by
  rcases prepend_cases kind path with ⟨rfl, hp⟩ | ⟨c, text, next, others, rfl, rfl, hp⟩ | hp
  · simp [hp, h]
  · simp [hp, h]
  · rw [hp]

/-- The normal form has the same captures, start states and end states. -/
theorem mem_normal_iff {kind : Kind τ} {path : Path τ} (h : ∀ text, kind ≠ .fixed text) :
    kind ∈ path.normal ↔ kind ∈ path := by
  induction path with
  | nil => rfl
  | cons first path ih =>
    rw [normal_cons, mem_prepend_iff h, List.mem_cons, List.mem_cons, ih]

theorem map_prepend (f : τ → υ) (kind : Kind τ) (path : Path τ) :
    (prepend kind path).map (Kind.map f) = prepend (kind.map f) (path.map (Kind.map f)) := by
  cases kind with
  | start => rfl
  | accept tag => rfl
  | capture name => rfl
  | fixed text =>
    cases text with
    | nil => rfl
    | cons c text =>
      cases path with
      | nil => rfl
      | cons next others => cases next <;> rfl

/-- Tags do not matter for the normal form. -/
theorem normal_map (f : τ → υ) (path : Path τ) :
    Path.normal (path.map (Kind.map f)) = path.normal.map (Kind.map f) := by
  induction path with
  | nil => rfl
  | cons kind path ih => rw [List.map_cons, normal_cons, ih, normal_cons, map_prepend]

end RoutePattern.Path
