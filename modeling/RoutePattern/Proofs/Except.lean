import Mathlib.Data.List.Forall2

/-!
# Steps that may fail

What it takes for a chain of steps, and for one step on every element of a list, to succeed or to
fail with a given error. A list fails with the error of its first element that does
(`mapM_eq_error_iff`). Chains fail alike if each step of the one fails as its partner in the other
(`FailsAs.bind`).
-/

namespace RoutePattern

variable {ε α β : Type}

/-- Two steps succeed if the first one does and the second one does with its result. -/
theorem bind_eq_ok_iff {first : Except ε α} {next : α → Except ε β} {result : β} :
    (first >>= next) = .ok result ↔ ∃ value, first = .ok value ∧ next value = .ok result := by
  cases first <;> simp [bind, Except.bind]

/-- Two steps fail with the error of the first one that does. -/
theorem bind_eq_error_iff {first : Except ε α} {next : α → Except ε β} {e : ε} :
    (first >>= next) = .error e ↔
      first = .error e ∨ ∃ value, first = .ok value ∧ next value = .error e := by
  cases first <;> simp [bind, Except.bind]

theorem pure_eq_ok_iff {value result : α} :
    (pure value : Except ε α) = .ok result ↔ value = result := by
  simp [pure, Except.pure]

/-- A chain that goes on only if a test does not refuse. -/
theorem ite_throw_eq_ok_iff {refused : Bool} {e : ε} {unreached : α → Except ε β}
    {next : Except ε β} {result : β} :
    (if refused = true then (throw e : Except ε α) >>= unreached else next) = .ok result ↔
      refused = false ∧ next = .ok result := by
  cases refused <;> simp [bind, Except.bind, throw, throwThe, MonadExceptOf.throw]

/-- A step succeeds on a list if it does on each element. -/
theorem mapM_eq_ok_iff {f : α → Except ε β} {inputs : List α} {results : List β} :
    inputs.mapM f = .ok results ↔ List.Forall₂ (fun x y => f x = .ok y) inputs results := by
  induction inputs generalizing results with
  | nil => rw [List.mapM_nil, pure_eq_ok_iff, List.forall₂_nil_left_iff, eq_comm]
  | cons x inputs ih =>
    rw [List.mapM_cons, List.forall₂_cons_left_iff]
    simp only [bind_eq_ok_iff, pure_eq_ok_iff, ih]
    constructor
    · rintro ⟨y, hy, others, ho, rfl⟩
      exact ⟨y, others, hy, ho, rfl⟩
    · rintro ⟨y, others, hy, ho, rfl⟩
      exact ⟨y, hy, others, ho, rfl⟩

theorem mapM_eq_some_iff {f : α → Option β} {inputs : List α} {results : List β} :
    inputs.mapM f = some results ↔ List.Forall₂ (fun x y => f x = some y) inputs results := by
  induction inputs generalizing results with
  | nil =>
    rw [List.mapM_nil, Option.pure_def, Option.some.injEq, List.forall₂_nil_left_iff, eq_comm]
  | cons x inputs ih =>
    rw [List.mapM_cons, List.forall₂_cons_left_iff]
    simp only [Option.bind_eq_bind, Option.bind_eq_some_iff, Option.pure_def, Option.some.injEq, ih]
    constructor
    · rintro ⟨y, hy, others, ho, rfl⟩
      exact ⟨y, others, hy, ho, rfl⟩
    · rintro ⟨y, others, hy, ho, rfl⟩
      exact ⟨y, hy, others, ho, rfl⟩

/-- A list whose elements all succeed with a known result. -/
theorem mapM_eq_ok_map_iff {f : α → Except ε β} {g : α → β} {p : α → Prop} {inputs : List α}
    {results : List β} (h : ∀ x y, f x = .ok y ↔ y = g x ∧ p x) :
    inputs.mapM f = .ok results ↔ results = inputs.map g ∧ ∀ x ∈ inputs, p x := by
  rw [mapM_eq_ok_iff]
  induction inputs generalizing results with
  | nil => simp
  | cons x inputs ih =>
    rw [List.forall₂_cons_left_iff]
    simp only [ih, List.map_cons, List.forall_mem_cons]
    constructor
    · rintro ⟨y, others, hy, ⟨rfl, ho⟩, rfl⟩
      obtain ⟨rfl, hx⟩ := (h x y).1 hy
      exact ⟨rfl, hx, ho⟩
    · rintro ⟨rfl, hx, ho⟩
      exact ⟨g x, inputs.map g, (h x (g x)).2 ⟨rfl, hx⟩, ⟨rfl, ho⟩, rfl⟩

/-- What stands in the second list has a partner in the first one. -/
theorem exists_mem_of_forall₂ {r : α → β → Prop} {inputs : List α} {results : List β}
    (h : List.Forall₂ r inputs results) {y : β} (hy : y ∈ results) : ∃ x ∈ inputs, r x y := by
  induction h with
  | nil => simp at hy
  | @cons x z inputs results hxz _ ih =>
    rcases List.mem_cons.1 hy with rfl | hy
    · exact ⟨x, List.mem_cons_self, hxz⟩
    · obtain ⟨x, hx, hxy⟩ := ih hy
      exact ⟨x, List.mem_cons_of_mem _ hx, hxy⟩

theorem exists_getElem?_of_forall₂ {r : α → β → Prop} {inputs : List α} {results : List β}
    (h : List.Forall₂ r inputs results) {index : Nat} {x : α} (hx : inputs[index]? = some x) :
    ∃ y, results[index]? = some y ∧ r x y := by
  induction h generalizing index with
  | nil => cases hx
  | cons hxy _ ih =>
    cases index with
    | zero =>
      obtain rfl := Option.some.inj hx
      exact ⟨_, rfl, hxy⟩
    | succ index => exact ih hx

/-- Partners with the same image. -/
theorem map_eq_of_forall₂ {γ : Type} {r : α → β → Prop} {f : α → γ} {g : β → γ} {inputs : List α}
    {results : List β} (h : List.Forall₂ r inputs results) (himage : ∀ x y, r x y → g y = f x) :
    results.map g = inputs.map f := by
  induction h with
  | nil => rfl
  | cons hxy _ ih => rw [List.map_cons, List.map_cons, himage _ _ hxy, ih]

/-- There is a list of partners if each element has one. -/
theorem exists_forall₂_iff {r : α → β → Prop} {inputs : List α} :
    (∃ results, List.Forall₂ r inputs results) ↔ ∀ x ∈ inputs, ∃ y, r x y := by
  induction inputs with
  | nil => simp
  | cons x inputs ih =>
    rw [List.forall_mem_cons, ← ih]
    constructor
    · rintro ⟨_, h⟩
      obtain ⟨y, results, hy, hresults, -⟩ := List.forall₂_cons_left_iff.1 h
      exact ⟨⟨y, hy⟩, results, hresults⟩
    · rintro ⟨⟨y, hy⟩, results, hresults⟩
      exact ⟨y :: results, .cons hy hresults⟩

/-- The error is that of the first element on which the step fails. -/
theorem mapM_eq_error_iff {f : α → Except ε β} {inputs : List α} {e : ε} :
    inputs.mapM f = .error e ↔ ∃ before x after, inputs = before ++ x :: after ∧
      (∀ y ∈ before, ∃ z, f y = .ok z) ∧ f x = .error e := by
  induction inputs with
  | nil => simp [pure, Except.pure]
  | cons x inputs ih =>
    rw [List.mapM_cons]
    simp only [bind_eq_error_iff, ih]
    constructor
    · rintro (hx | ⟨y, hy, ⟨before, z, after, rfl, hbefore, hz⟩ | ⟨others, -, h⟩⟩)
      · exact ⟨[], x, inputs, rfl, by simp, hx⟩
      · exact ⟨x :: before, z, after, rfl, List.forall_mem_cons.2 ⟨⟨y, hy⟩, hbefore⟩, hz⟩
      · simp [pure, Except.pure] at h
    · rintro ⟨before, z, after, heq, hbefore, hz⟩
      cases before with
      | nil =>
        obtain ⟨rfl, -⟩ := List.cons_eq_cons.1 heq
        exact .inl hz
      | cons first before =>
        obtain ⟨rfl, rfl⟩ := List.cons_eq_cons.1 heq
        rw [List.forall_mem_cons] at hbefore
        obtain ⟨⟨y, hy⟩, hbefore⟩ := hbefore
        exact .inr ⟨y, hy, .inl ⟨before, z, after, rfl, hbefore, hz⟩⟩

/-! ## Steps that fail alike -/

/-- The two steps fail with the same error, or neither fails. -/
def FailsAs (step : Except ε α) (other : Except ε β) : Prop :=
  ∀ e, step = .error e ↔ other = .error e

namespace FailsAs

variable {γ δ : Type} {step : Except ε α} {other : Except ε β}

theorem pure (value : α) (result : β) :
    FailsAs (Pure.pure value : Except ε α) (Pure.pure result : Except ε β) :=
  fun _ => iff_of_false nofun nofun

theorem exists_eq_ok_iff (h : FailsAs step other) :
    (∃ value, step = .ok value) ↔ ∃ result, other = .ok result := by
  cases step with
  | error e =>
    rw [(h e).1 rfl]
    exact iff_of_false nofun nofun
  | ok value =>
    cases other with
    | error e => exact absurd ((h e).2 rfl) nofun
    | ok result => exact iff_of_true ⟨value, rfl⟩ ⟨result, rfl⟩

theorem bind {next : α → Except ε γ} {following : β → Except ε δ} (h : FailsAs step other)
    (hnext : ∀ value result, step = .ok value → other = .ok result →
      FailsAs (next value) (following result)) :
    FailsAs (step >>= next) (other >>= following) := by
  intro e
  rw [bind_eq_error_iff, bind_eq_error_iff, h e]
  refine or_congr_right ⟨?_, ?_⟩
  · rintro ⟨value, hvalue, he⟩
    obtain ⟨result, hresult⟩ := h.exists_eq_ok_iff.1 ⟨value, hvalue⟩
    exact ⟨result, hresult, (hnext value result hvalue hresult e).1 he⟩
  · rintro ⟨result, hresult, he⟩
    obtain ⟨value, hvalue⟩ := h.exists_eq_ok_iff.2 ⟨result, hresult⟩
    exact ⟨value, hvalue, (hnext value result hvalue hresult e).2 he⟩

theorem mapM {f : α → Except ε β} {g : γ → Except ε δ} {key : α → γ}
    (h : ∀ x, FailsAs (f x) (g (key x))) (inputs : List α) :
    FailsAs (inputs.mapM f) ((inputs.map key).mapM g) := by
  induction inputs with
  | nil => exact .pure [] []
  | cons x inputs ih =>
    rw [List.mapM_cons, List.map_cons, List.mapM_cons]
    exact (h x).bind fun _ _ _ _ => ih.bind fun _ _ _ _ => .pure _ _

end FailsAs

end RoutePattern
