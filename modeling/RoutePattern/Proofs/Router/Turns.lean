import RoutePattern.Proofs.Router.Dispatch

/-!
# Dispatch by turns

A request is served by a loop. A turn of it looks at the innermost level: the level is left, a match
on it is passed over, a handler is found, or a mounted router is entered. `Turn` is one turn and
`Run` are many, with what happens on the way.

A turn that finds no handler does not change what is found next (`next_of_quiet`), and a turn that
finds one finds the next one (`next_of_result`), so what a run down to the empty stack finds is what
the request gives (`Runs.yields`). There is such a run for every request (`exists_runs`).
-/

namespace RoutePattern

variable {η : Type}

namespace Level

/-! ## The next handler of a level -/

section Advance

variable {method : Method} {level : Level η} {found : Match Nat} {left : Matches Nat}
  {route : Route η}

/-- A level without matches gives no handler. -/
theorem advance_of_next_none (hnext : level.found.next = (none, left)) :
    level.advance method = (none, []) := by
  rw [advance]
  split
  · rfl
  · next h => rw [hnext] at h; cases h

/-- A level with a match goes on with it, or with the matches behind it. -/
theorem advance_of_next_some (hnext : level.found.next = (some found, left)) :
    level.advance method =
      match level.router.routes[found.tag]? with
      | none => ({ level with found := left } : Level η).advance method
      | some route =>
        if route.allows method then
          match route.target with
          | .handler handler => (some ⟨handler, level.inherited.override found.params, found.tag,
              route.pattern⟩, [{ level with found := left }])
          | .mount child =>
            match (descend child (level.inherited.override found.params)).advance method with
            | (some result, inner) => (some result, { level with found := left } :: inner)
            | (none, _) => ({ level with found := left } : Level η).advance method
        else ({ level with found := left } : Level η).advance method := by
  rw [advance]
  split
  · next h => rw [hnext] at h; cases h
  · next h =>
    rw [hnext] at h
    cases h
    split
    · next h => simp [h]
    · next h =>
      simp only [h]
      split
      · split
        · next h => simp [h]
        · next h => exact h ▸ rfl
      · rfl

end Advance

/-- The innermost level of a chain gives the next handler, or the chain around it does. -/
theorem advanceAll_concat (method : Method) (outer : List (Level η)) (level : Level η) :
    advanceAll method (outer ++ [level]) =
      match level.advance method with
      | (some result, inner) => (some result, outer ++ inner)
      | (none, _) => advanceAll method outer := by
  induction outer with
  | nil =>
    rw [List.nil_append, advanceAll, advanceAll]
    rcases hadvance : level.advance method with ⟨_ | result, inner⟩
    · simp only [(pending_of_advance hadvance).2 rfl, advanceAll]
    · rfl
  | cons first outer ih =>
    rw [List.cons_append, advanceAll, ih]
    rcases level.advance method with ⟨_ | result, inner⟩
    · rw [advanceAll]
    · rfl

end Level

/-! ## Turns -/

namespace Dispatch

/-- What a turn of the loop does. -/
inductive Event (η : Type) where
  /-- The innermost level is left. -/
  | leave
  /-- A match of the innermost level is passed over. -/
  | pass
  /-- A handler is found in this router. -/
  | find (router : Router η) (result : RouteMatch η)
  /-- A route of the innermost level, with `depth` levels around it, leads to the level of a mounted
  router. -/
  | descend (depth route : Nat) (entered : Level η)

/-- The handler that an event gives. -/
def Event.result? : Event η → Option (RouteMatch η)
  | find _ result => some result
  | _ => none

/-- One turn with the levels before and behind it, innermost level first. -/
inductive Turn (method : Method) : List (Level η) → Event η → List (Level η) → Prop
  | leave {level : Level η} {outer : List (Level η)} {left : Matches Nat}
      (hnext : level.found.next = (none, left)) : Turn method (level :: outer) .leave outer
  | pass {level : Level η} {outer : List (Level η)} {found : Match Nat} {left : Matches Nat}
      (hnext : level.found.next = (some found, left))
      (hpass : ∀ route, level.router.routes[found.tag]? = some route →
        route.allows method = false) :
      Turn method (level :: outer) .pass ({ level with found := left } :: outer)
  | find {level : Level η} {outer : List (Level η)} {found : Match Nat} {left : Matches Nat}
      {route : Route η} {handler : η} (hnext : level.found.next = (some found, left))
      (hroute : level.router.routes[found.tag]? = some route)
      (hallows : route.allows method = true) (htarget : route.target = .handler handler) :
      Turn method (level :: outer)
        (.find level.router
          ⟨handler, level.inherited.override found.params, found.tag, route.pattern⟩)
        ({ level with found := left } :: outer)
  | descend {level : Level η} {outer : List (Level η)} {found : Match Nat} {left : Matches Nat}
      {route : Route η} {child : Router η} {params : Params}
      (hnext : level.found.next = (some found, left))
      (hroute : level.router.routes[found.tag]? = some route)
      (hallows : route.allows method = true) (htarget : route.target = .mount child)
      (hparams : params = level.inherited.override found.params) :
      Turn method (level :: outer)
        (.descend outer.length found.tag (Level.descend child params))
        (Level.descend child params :: { level with found := left } :: outer)

/-- Many turns with their events. -/
inductive Run (method : Method) : List (Level η) → List (Event η) → List (Level η) → Prop
  | nil {stack : List (Level η)} : Run method stack [] stack
  | cons {stack next last : List (Level η)} {event : Event η} {events : List (Event η)}
      (hturn : Turn method stack event next) (hrun : Run method next events last) :
      Run method stack (event :: events) last

/-- The request is served to its end with these events. -/
def Runs (dispatch : Dispatch η) (events : List (Event η)) : Prop :=
  Run dispatch.method dispatch.levels.reverse events []

variable {method : Method} {stack next last : List (Level η)} {event : Event η}
  {events : List (Event η)}

theorem Run.append {others : List (Event η)} (h : Run method stack events next)
    (hothers : Run method next others last) : Run method stack (events ++ others) last := by
  induction h with
  | nil => exact hothers
  | cons hturn _ ih => exact .cons hturn (ih hothers)

/-- A turn that finds no handler leaves the next handler as it is. -/
theorem Turn.next_of_quiet (h : Turn method stack event next) (hquiet : event.result? = none) :
    Level.advanceAll method stack.reverse = Level.advanceAll method next.reverse := by
  cases h with
  | leave hnext =>
    rw [List.reverse_cons, Level.advanceAll_concat, Level.advance_of_next_none hnext]
  | @pass level outer found left hnext hpass =>
    have hsame : level.advance method =
        ({ level with found := left } : Level η).advance method := by
      rw [Level.advance_of_next_some hnext]
      cases hroute : level.router.routes[found.tag]? with
      | none => rfl
      | some route => simp [hpass route hroute]
    rw [List.reverse_cons, List.reverse_cons, Level.advanceAll_concat, Level.advanceAll_concat,
      hsame]
  | find => cases hquiet
  | @descend level outer found left route child params hnext hroute hallows htarget hparams =>
    have hlevel : level.advance method =
        match (Level.descend child params).advance method with
        | (some result, inner) => (some result, { level with found := left } :: inner)
        | (none, _) => ({ level with found := left } : Level η).advance method := by
      rw [Level.advance_of_next_some hnext]
      simp [hroute, hallows, htarget, hparams]
    rw [List.reverse_cons, List.reverse_cons, List.reverse_cons, Level.advanceAll_concat,
      Level.advanceAll_concat, Level.advanceAll_concat, hlevel]
    rcases (Level.descend child params).advance method with ⟨_ | result, inner⟩
    · rfl
    · simp

/-- A turn that finds a handler finds the next one. -/
theorem Turn.next_of_result {result : RouteMatch η} (h : Turn method stack event next)
    (hresult : event.result? = some result) :
    Level.advanceAll method stack.reverse = (some result, next.reverse) := by
  cases h with
  | leave => cases hresult
  | pass => cases hresult
  | descend => cases hresult
  | @find level outer found left route handler hnext hroute hallows htarget =>
    cases hresult
    have hlevel : level.advance method = (some ⟨handler, level.inherited.override found.params,
        found.tag, route.pattern⟩, [{ level with found := left }]) := by
      rw [Level.advance_of_next_some hnext]
      simp [hroute, hallows, htarget]
    rw [List.reverse_cons, List.reverse_cons, Level.advanceAll_concat, hlevel]

/-! ## Runs -/

theorem Yields.of_next_eq {dispatch other : Dispatch η} {results : List (RouteMatch η)}
    (h : other.Yields results) (hnext : dispatch.next = other.next) : dispatch.Yields results := by
  cases h with
  | done hother => exact .done (hnext.trans hother)
  | found hother hrest => exact .found (hnext.trans hother) hrest

/-- A request gives what a run to its end finds. -/
theorem Run.yields (h : Run method stack events []) :
    (⟨method, stack.reverse⟩ : Dispatch η).Yields (events.filterMap Event.result?) := by
  generalize hlast : ([] : List (Level η)) = last at h
  induction h with
  | nil =>
    subst hlast
    exact .done rfl
  | @cons stack next last event events hturn _ ih =>
    have hrest := ih hlast
    cases hevent : event.result? with
    | none =>
      rw [List.filterMap_cons_none hevent]
      refine hrest.of_next_eq ?_
      rw [Dispatch.next, Dispatch.next, hturn.next_of_quiet hevent]
    | some result =>
      rw [List.filterMap_cons_some hevent]
      refine .found ?_ hrest
      rw [Dispatch.next, hturn.next_of_result hevent]

theorem Runs.yields {dispatch : Dispatch η} (h : dispatch.Runs events) :
    dispatch.Yields (events.filterMap Event.result?) := by
  have hyields := Run.yields h
  rwa [List.reverse_reverse] at hyields

/-- Every level is left at some time. -/
theorem exists_run_of_level (method : Method) (level : Level η) (outer : List (Level η)) :
    ∃ events, Run method (level :: outer) events outer := by
  rcases hnext : level.found.next with ⟨_ | found, left⟩
  · exact ⟨[.leave], .cons (.leave hnext) .nil⟩
  · obtain ⟨events, hrun⟩ := exists_run_of_level method { level with found := left } outer
    -- Whatever becomes of the match, the level is left after the matches behind it.
    by_cases hpass : ∀ route, level.router.routes[found.tag]? = some route →
        route.allows method = false
    · exact ⟨_, .cons (.pass hnext hpass) hrun⟩
    · simp only [not_forall, Bool.not_eq_false] at hpass
      obtain ⟨route, hroute, hallows⟩ := hpass
      cases htarget : route.target with
      | handler handler => exact ⟨_, .cons (.find hnext hroute hallows htarget) hrun⟩
      | mount child =>
        obtain ⟨inner, hinner⟩ := exists_run_of_level method
          (Level.descend child (level.inherited.override found.params))
          ({ level with found := left } :: outer)
        exact ⟨_, .cons (.descend hnext hroute hallows htarget rfl) (hinner.append hrun)⟩
termination_by (sizeOf level.router, level.found.remaining)
decreasing_by
  · exact Prod.Lex.right _ (Matches.remaining_next_lt hnext)
  · exact Prod.Lex.left _ _ (Router.sizeOf_mounted_lt hroute htarget)

theorem exists_run (method : Method) (stack : List (Level η)) :
    ∃ events, Run method stack events [] := by
  induction stack with
  | nil => exact ⟨[], .nil⟩
  | cons level outer ih =>
    obtain ⟨events, hrun⟩ := exists_run_of_level method level outer
    obtain ⟨others, hothers⟩ := ih
    exact ⟨_, hrun.append hothers⟩

/-- Every request is served to its end. -/
theorem exists_runs (dispatch : Dispatch η) : ∃ events, dispatch.Runs events :=
  exists_run dispatch.method dispatch.levels.reverse

end Dispatch

end RoutePattern
