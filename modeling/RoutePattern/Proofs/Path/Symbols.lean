import RoutePattern.Proofs.Path.Normal

/-!
# Paths by their symbols

Where a path cuts its literals does not matter, so a path may be written out: each literal as its
characters, one by one, and every other state as it is (`Path.symbols`). Put together again by
`Path.ofSymbols`, each run of characters becomes one literal, and this is the normal form
(`ofSymbols_symbols`). So normal forms are equal just when the paths are written out the same
(`normal_eq_normal_iff`), and the normal form can stand for the path.
-/

namespace RoutePattern

variable {τ : Type}

/-- A state written out: a literal is its characters, and any other state stands for itself. -/
def Kind.symbols : Kind τ → List (Char ⊕ Kind τ)
  | fixed text => text.map .inl
  | kind => [.inr kind]

namespace Path

/-- The path with its literals written out character by character. -/
def symbols (path : Path τ) : List (Char ⊕ Kind τ) := path.flatMap Kind.symbols

/-- A symbol put before a path: a character joins a literal, and a state stays apart. -/
def prependSymbol : Char ⊕ Kind τ → Path τ → Path τ
  | .inl c, path => prepend (.fixed [c]) path
  | .inr kind, path => kind :: path

/-- The path of the symbols, with one literal for each run of characters. -/
def ofSymbols (symbols : List (Char ⊕ Kind τ)) : Path τ := symbols.foldr prependSymbol []

@[simp] theorem symbols_nil : symbols ([] : Path τ) = [] := rfl

@[simp] theorem symbols_cons (kind : Kind τ) (path : Path τ) :
    symbols (kind :: path) = kind.symbols ++ path.symbols := rfl

/-! ## Written out -/

theorem symbols_prepend (kind : Kind τ) (path : Path τ) :
    symbols (prepend kind path) = kind.symbols ++ path.symbols := by
  rcases prepend_cases kind path with ⟨rfl, h⟩ | ⟨c, text, next, others, rfl, rfl, h⟩ | h
  · rw [h]
    rfl
  · rw [h]
    simp [Kind.symbols]
  · rw [h, symbols_cons]

/-- The normal form is written out as the path is. -/
theorem symbols_normal (path : Path τ) : path.normal.symbols = path.symbols := by
  induction path with
  | nil => rfl
  | cons kind path ih => rw [normal_cons, symbols_prepend, ih, symbols_cons]

/-! ## Put together -/

theorem prepend_fixed_cons (c : Char) (text : Text) (path : Path τ) :
    prepend (.fixed (c :: text)) path = prepend (.fixed [c]) (prepend (.fixed text) path) := by
  cases text with
  | nil => rfl
  | cons d text =>
    rcases path with _ | ⟨next, others⟩
    · rfl
    · cases next <;> rfl

/-- The symbols of a state, put before a path one by one, are the state put before it. -/
theorem foldr_symbols (kind : Kind τ) (path : Path τ) :
    kind.symbols.foldr prependSymbol path = prepend kind path := by
  cases kind with
  | start => rfl
  | accept tag => rfl
  | capture name => rfl
  | fixed text =>
    induction text with
    | nil => rfl
    | cons c text ih =>
      rw [prepend_fixed_cons, ← ih]
      rfl

/-- A path written out and put together again is its normal form. -/
theorem ofSymbols_symbols (path : Path τ) : ofSymbols path.symbols = path.normal := by
  unfold ofSymbols
  induction path with
  | nil => rfl
  | cons kind path ih => rw [symbols_cons, List.foldr_append, ih, foldr_symbols, normal_cons]

theorem normal_eq_normal_iff {path other : Path τ} :
    path.normal = other.normal ↔ path.symbols = other.symbols := by
  constructor
  · intro h
    rw [← symbols_normal path, h, symbols_normal]
  · intro h
    rw [← ofSymbols_symbols path, h, ofSymbols_symbols]

/-! ## The normal form stands for the path -/

theorem IsNormal.of_append {before after : Path τ} (h : IsNormal (before ++ after)) :
    IsNormal after := by
  induction before with
  | nil => exact h
  | cons kind before ih =>
    apply ih
    cases kind with
    | start => exact h
    | accept tag => exact h
    | capture name => exact h
    | fixed text => exact h.2.2

/-- Paths have one normal form just when they are written out the same. It has no empty literal and
no two neighbouring literals, is its own normal form, and passes the test for touching captures as
the path does, or is refused for the same two. -/
theorem normal_canonical (path other : Path τ) :
    (path.normal = other.normal ↔ path.symbols = other.symbols) ∧
      .fixed [] ∉ path.normal ∧
      (∀ before text next after, path.normal ≠ before ++ .fixed text :: .fixed next :: after) ∧
      path.normal.normal = path.normal ∧
      path.normal.check = path.check := by
  refine ⟨normal_eq_normal_iff, ?_, ?_, normal_normal path, check_normal path⟩
  · intro hempty
    obtain ⟨before, after, hpath⟩ := List.append_of_mem hempty
    have hnormal := isNormal_normal path
    rw [hpath] at hnormal
    exact hnormal.of_append.1 rfl
  · intro before text next after hpath
    have hnormal := isNormal_normal path
    rw [hpath] at hnormal
    exact hnormal.of_append.2.1 next after rfl

/-- Literals cut at other places, with empty ones between them. -/
example : symbols [.fixed ['a', 'b'], .fixed [], .capture ['n'], .accept 1] =
    symbols [.fixed [], .fixed ['a'], .fixed ['b'], .capture ['n'], .accept 1] := rfl

end Path

end RoutePattern
