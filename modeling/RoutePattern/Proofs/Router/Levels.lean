import Mathlib.Data.List.Chain
import RoutePattern.Proofs.Router.Turns

/-!
# The levels of a dispatch

Whatever a request has been asked for, its levels are those of the router of the request and of
mounts inside one another (`Chained`). Every turn of the loop keeps this (`Chained.turn`), so all
runs do (`Chained.run`), and there are never more levels than routers can be mounted in one another
(`Chained.length_le`).

A call of `Dispatch.next` is the turns down to the first handler that is found, or down to the empty
stack (`call_next`). Turns are determined (`Turn.unique`), so no run is longer than the one that
serves the request to its end (`Run.length_le`).
-/

namespace RoutePattern

variable {η : Type}

/-! ## How deep routers are mounted -/

mutual

/-- How many routers inside one another a router has mounted at most. -/
def Router.mountHeight : Router η → Nat
  | ⟨routes, _⟩ => mountHeightOfRoutes routes

/-- The same for the routes of a router. -/
def mountHeightOfRoutes : List (Route η) → Nat
  | [] => 0
  | route :: rest => max (mountHeightOfRoute route) (mountHeightOfRoutes rest)

/-- The same for a route: a mount is one router more than what that router has mounted. -/
def mountHeightOfRoute : Route η → Nat
  | ⟨_, _, .handler _⟩ => 0
  | ⟨_, _, .mount child⟩ => child.mountHeight + 1

end

theorem mountHeightOfRoute_le {route : Route η} {routes : List (Route η)} (h : route ∈ routes) :
    mountHeightOfRoute route ≤ mountHeightOfRoutes routes := by
  induction routes with
  | nil => cases h
  | cons first rest ih =>
    rw [mountHeightOfRoutes]
    rcases List.mem_cons.1 h with rfl | h
    · omega
    · have := ih h
      omega

/-- A mounted router has fewer routers inside one another. -/
theorem Router.mountHeight_lt {router child : Router η} {route : Route η}
    (h : route ∈ router.routes) (htarget : route.target = .mount child) :
    child.mountHeight < router.mountHeight := by
  obtain ⟨routes, automaton⟩ := router
  obtain ⟨pattern, methods, target⟩ := route
  subst htarget
  have hroute : mountHeightOfRoute _ ≤ mountHeightOfRoutes routes := mountHeightOfRoute_le h
  rw [mountHeightOfRoute] at hroute
  rw [Router.mountHeight]
  omega

namespace Dispatch

/-! ## Chains of mounts -/

/-- What holds of the levels of a request, the innermost one first. -/
structure Chained (router : Router η) (method : Method) (stack : List (Level η)) : Prop where
  /-- The outermost level is that of the router of the request. -/
  outermost : ∀ level ∈ stack.getLast?, level.router = router
  /-- Every other one is that of a mount of the level around it, for the method. -/
  mounted : stack.IsChain fun inner outer => ∃ route ∈ outer.router.routes,
    route.allows method = true ∧ route.target = .mount inner.router
  /-- No level inherits the rest of a path. -/
  inherited : ∀ level ∈ stack, level.inherited.get? remainderName = none
  /-- Every level goes through the matches of its own router. -/
  enumerates : ∀ level ∈ stack, ∃ calls,
    level.found = (level.router.automaton.matchesOf level.found.input).after calls

section Chained

variable {router : Router η} {method : Method} {level : Level η} {outer stack next : List (Level η)}
  {event : Event η} {events : List (Event η)}

theorem chained_dispatch (router : Router η) (method : Method) (path : Text) :
    Chained router method [Level.enter router path .empty] where
  outermost := by
    intro level hlevel
    obtain rfl := Option.some.inj hlevel
    rfl
  mounted := .singleton _
  inherited := by
    intro level hlevel
    obtain rfl := List.mem_singleton.1 hlevel
    rfl
  enumerates := by
    intro level hlevel
    obtain rfl := List.mem_singleton.1 hlevel
    exact ⟨0, rfl⟩

/-- The innermost level may be left. -/
theorem Chained.leave (h : Chained router method (level :: outer)) :
    Chained router method outer where
  outermost := by
    cases outer with
    | nil => nofun
    | cons => exact h.outermost
  mounted := h.mounted.tail
  inherited := fun inner hinner => h.inherited inner (List.mem_cons_of_mem _ hinner)
  enumerates := fun inner hinner => h.enumerates inner (List.mem_cons_of_mem _ hinner)

/-- The innermost level may go on with the matches behind its next one. -/
theorem Chained.goOn (h : Chained router method (level :: outer)) {found : Match Nat}
    {left : Matches Nat} (hnext : level.found.next = (some found, left)) :
    Chained router method ({ level with found := left } :: outer) where
  outermost := by
    cases outer with
    | nil =>
      intro inner hinner
      obtain rfl := Option.some.inj hinner
      exact h.outermost level rfl
    | cons => exact h.outermost
  mounted := by
    cases outer with
    | nil => exact .singleton _
    | cons => exact List.isChain_cons_cons.2 (List.isChain_cons_cons.1 h.mounted)
  inherited := by
    intro inner hinner
    rcases List.mem_cons.1 hinner with rfl | hinner
    · exact h.inherited level List.mem_cons_self
    · exact h.inherited inner (List.mem_cons_of_mem _ hinner)
  enumerates := by
    intro inner hinner
    rcases List.mem_cons.1 hinner with rfl | hinner
    · obtain rfl : level.found.next.2 = left := congrArg Prod.snd hnext
      obtain ⟨calls, hcalls⟩ := h.enumerates level List.mem_cons_self
      refine ⟨calls + 1, ?_⟩
      show level.found.next.2 =
        ((level.router.automaton.matchesOf level.found.next.2.input).after calls).next.2
      rw [Matches.input_snd_next, ← hcalls]
    · exact h.enumerates inner (List.mem_cons_of_mem _ hinner)

/-- A mounted router may be entered. -/
theorem Chained.descend (h : Chained router method (level :: outer)) {route : Route η}
    {child : Router η} {params : Params} (hroute : route ∈ level.router.routes)
    (hallows : route.allows method = true) (htarget : route.target = .mount child) :
    Chained router method (Level.descend child params :: level :: outer) where
  outermost := h.outermost
  mounted := .cons_cons ⟨route, hroute, hallows, htarget⟩ h.mounted
  inherited := by
    intro inner hinner
    rcases List.mem_cons.1 hinner with rfl | hinner
    · show (params.erase remainderName).get? remainderName = none
      rw [Params.get?_erase, if_pos rfl]
    · exact h.inherited inner hinner
  enumerates := by
    intro inner hinner
    rcases List.mem_cons.1 hinner with rfl | hinner
    · exact ⟨0, rfl⟩
    · exact h.enumerates inner hinner

/-- Every turn keeps the chain. -/
theorem Chained.turn (h : Chained router method stack) (hturn : Turn method stack event next) :
    Chained router method next := by
  cases hturn with
  | leave => exact h.leave
  | pass hnext => exact h.goOn hnext
  | find hnext => exact h.goOn hnext
  | descend hnext hroute hallows htarget =>
    exact (h.goOn hnext).descend (List.mem_of_getElem? hroute) hallows htarget

theorem Chained.run (h : Chained router method stack) (hrun : Run method stack events next) :
    Chained router method next := by
  induction hrun with
  | nil => exact h
  | cons hturn _ ih => exact ih (h.turn hturn)

/-- Each level leaves room for one mount less. -/
theorem Chained.length_add_le (h : Chained router method (level :: outer)) :
    (level :: outer).length + level.router.mountHeight ≤ 1 + router.mountHeight := by
  induction outer generalizing level with
  | nil =>
    rw [h.outermost level rfl, List.length_singleton]
  | cons around outer ih =>
    obtain ⟨route, hroute, -, htarget⟩ := (List.isChain_cons_cons.1 h.mounted).1
    have hlower := Router.mountHeight_lt hroute htarget
    have hrest := ih h.leave
    rw [List.length_cons]
    omega

theorem Chained.length_le (h : Chained router method stack) :
    stack.length ≤ 1 + router.mountHeight := by
  cases stack with
  | nil => exact Nat.zero_le _
  | cons level outer =>
    have := h.length_add_le
    omega

end Chained

/-! ## Turns are determined -/

/-- What a turn does, and the levels behind it; on an empty stack there is no turn. -/
def turn? (method : Method) : List (Level η) → Option (Event η × List (Level η))
  | [] => none
  | level :: outer =>
    match level.found.next with
    | (none, _) => some (.leave, outer)
    | (some found, left) =>
      let following : Level η := { level with found := left }
      let params := level.inherited.override found.params
      match level.router.routes[found.tag]? with
      | none => some (.pass, following :: outer)
      | some route =>
        if route.allows method then
          match route.target with
          | .handler handler =>
            some (.find level.router ⟨handler, params, found.tag, route.pattern⟩,
              following :: outer)
          | .mount child =>
            some (.descend outer.length found.tag (Level.descend child params),
              Level.descend child params :: following :: outer)
        else some (.pass, following :: outer)

section Run

variable {method : Method} {stack next last : List (Level η)} {event : Event η}
  {events : List (Event η)}

theorem Turn.turn?_eq (h : Turn method stack event next) :
    turn? method stack = some (event, next) := by
  cases h with
  | leave hnext => simp only [turn?, hnext]
  | @pass level outer found left hnext hpass =>
    cases hroute : level.router.routes[found.tag]? with
    | none => simp only [turn?, hnext, hroute]
    | some route =>
      have hallows := hpass route hroute
      simp only [turn?, hnext, hroute, hallows, Bool.false_eq_true, ↓reduceIte]
  | find hnext hroute hallows htarget =>
    simp only [turn?, hnext, hroute, hallows, htarget, ↓reduceIte]
  | descend hnext hroute hallows htarget hparams =>
    simp only [turn?, hnext, hroute, hallows, htarget, hparams, ↓reduceIte]

theorem Turn.unique {other : Event η} {others : List (Level η)} (h : Turn method stack event next)
    (hother : Turn method stack other others) : event = other ∧ next = others :=
  Prod.mk.inj (Option.some.inj (h.turn?_eq.symm.trans hother.turn?_eq))

/-- No run is longer than one that empties the stack. -/
theorem Run.length_le {others : List (Event η)} (h : Run method stack events [])
    (hother : Run method stack others last) : others.length ≤ events.length := by
  generalize hend : ([] : List (Level η)) = done at h
  induction h generalizing others with
  | nil =>
    subst hend
    cases hother with
    | nil => exact Nat.le_refl _
    | cons hturn => cases hturn
  | cons hturn _ ih =>
    cases hother with
    | nil => exact Nat.zero_le _
    | cons hturn' hrun' =>
      -- Both runs begin with the same turn.
      obtain ⟨rfl, rfl⟩ := hturn.unique hturn'
      have := ih hrun' hend
      rw [List.length_cons, List.length_cons]
      omega

/-! ## Calls -/

/-- The turns of one call, down to the first one that finds a handler or down to the empty stack. -/
inductive Call (method : Method) :
    List (Level η) → Option (RouteMatch η) → List (Level η) → Prop
  | done : Call method [] none []
  | found {stack next : List (Level η)} {event : Event η} {result : RouteMatch η}
      (hturn : Turn method stack event next) (hresult : event.result? = some result) :
      Call method stack (some result) next
  | quiet {stack next last : List (Level η)} {event : Event η} {result : Option (RouteMatch η)}
      (hturn : Turn method stack event next) (hquiet : event.result? = none)
      (hcall : Call method next result last) : Call method stack result last

theorem Run.exists_call (h : Run method stack events []) :
    ∃ result last, Call method stack result last := by
  generalize hend : ([] : List (Level η)) = done at h
  induction h with
  | nil =>
    subst hend
    exact ⟨none, [], .done⟩
  | @cons stack next last event events hturn _ ih =>
    cases hresult : event.result? with
    | some result => exact ⟨some result, next, .found hturn hresult⟩
    | none =>
      obtain ⟨result, last, hcall⟩ := ih hend
      exact ⟨result, last, .quiet hturn hresult hcall⟩

theorem Call.advanceAll_eq {result : Option (RouteMatch η)} (h : Call method stack result last) :
    Level.advanceAll method stack.reverse = (result, last.reverse) := by
  induction h with
  | done => rfl
  | found hturn hresult => exact hturn.next_of_result hresult
  | quiet hturn hquiet _ ih => rw [hturn.next_of_quiet hquiet, ih]

/-- A call comes to an end, with the next handler and the levels behind it. -/
theorem call_next (dispatch : Dispatch η) :
    Call dispatch.method dispatch.levels.reverse dispatch.next.1
      dispatch.next.2.levels.reverse := by
  obtain ⟨events, hrun⟩ := exists_run dispatch.method dispatch.levels.reverse
  obtain ⟨result, last, hcall⟩ := hrun.exists_call
  have hnext := hcall.advanceAll_eq
  rw [List.reverse_reverse] at hnext
  unfold next
  rw [hnext]
  simpa using hcall

/-- A call leaves no level just if it gives no handler. -/
theorem Call.last_eq_nil_iff {result : Option (RouteMatch η)} (h : Call method stack result last) :
    last = [] ↔ result = none := by
  induction h with
  | done => exact iff_of_true rfl rfl
  | quiet _ _ _ ih => exact ih
  | found hturn hresult =>
    refine iff_of_false ?_ (Option.some_ne_none _)
    cases hturn with
    | leave => cases hresult
    | pass => exact List.cons_ne_nil _ _
    | find => exact List.cons_ne_nil _ _
    | descend => exact List.cons_ne_nil _ _

theorem Call.exists_run {result : Option (RouteMatch η)} (h : Call method stack result last) :
    ∃ events, Run method stack events last := by
  induction h with
  | done => exact ⟨[], .nil⟩
  | found hturn _ => exact ⟨_, .cons hturn .nil⟩
  | quiet hturn _ _ ih =>
    obtain ⟨events, hrun⟩ := ih
    exact ⟨_, .cons hturn hrun⟩

end Run

/-! ## What a call gives -/

/-- The level has given the result by a match of its own router. -/
structure GivenBy (owner : Level η) (found : Match Nat) (result : RouteMatch η) : Prop where
  /-- The router has the match for the path of the level. -/
  own : found ∈ (owner.router.automaton.matchesOf owner.found.input).toList
  /-- The match is one of a route to the handler. -/
  route : ∃ route, owner.router.routes[found.tag]? = some route ∧
    route.target = .handler result.handler ∧ route.pattern = result.pattern
  /-- The result names the route. -/
  place : result.route = found.tag
  /-- The captures of the match override those of the mounts around. -/
  params : result.params = owner.inherited.override found.params

/-- The rest of the path is not that of a mount around. -/
theorem GivenBy.remainder {owner : Level η} {found : Match Nat} {result : RouteMatch η}
    (h : GivenBy owner found result) (howner : owner.inherited.get? remainderName = none) :
    result.params.get? remainderName = found.params.get? remainderName := by
  rw [h.params, Params.get?_override, howner, Option.or_none]

section Call

variable {router : Router η} {method : Method} {stack last : List (Level η)}

/-- The turns to come are boundedly many, and each of them keeps the chain. -/
theorem Chained.runs_le (h : Chained router method stack) :
    ∃ bound, ∀ events next, Run method stack events next →
      events.length ≤ bound ∧ Chained router method next ∧
      next.length ≤ 1 + router.mountHeight := by
  obtain ⟨events, hrun⟩ := exists_run method stack
  refine ⟨events.length, ?_⟩
  intro others next hothers
  exact ⟨hrun.length_le hothers, h.run hothers, (h.run hothers).length_le⟩

theorem Chained.givenBy (h : Chained router method stack) {result : RouteMatch η}
    (hcall : Call method stack (some result) last) :
    ∃ owner outer found, last = owner :: outer ∧ GivenBy owner found result := by
  generalize hsome : some result = found? at hcall
  induction hcall with
  | done => cases hsome
  | quiet hturn _ _ ih => exact ih (h.turn hturn) hsome
  | @found stack next event other hturn hresult =>
    obtain rfl := Option.some.inj hsome
    cases hturn with
    | leave => cases hresult
    | pass => cases hresult
    | descend => cases hresult
    | @find level outer found left route handler hnext hroute hallows htarget =>
      -- The match is the next one of an enumeration that has been asked `calls` times.
      cases hresult
      obtain ⟨calls, hcalls⟩ := h.enumerates level List.mem_cons_self
      have hinput : left.input = level.found.input := by
        rw [← level.found.input_snd_next, hnext]
      have hmem : found ∈ (level.router.automaton.matchesOf level.found.input).toList := by
        have hplace := Matches.fst_next_after
          (level.router.automaton.matchesOf level.found.input) calls
        rw [← hcalls, hnext] at hplace
        exact List.mem_of_getElem? hplace.symm
      exact ⟨{ level with found := left }, outer, found, rfl, hinput ▸ hmem,
        ⟨route, hroute, htarget, rfl⟩, rfl, rfl⟩

end Call

/-- The request behind that many calls. -/
def after (dispatch : Dispatch η) : (calls : Nat) → Dispatch η
  | 0 => dispatch
  | calls + 1 => (dispatch.after calls).next.2

theorem method_after (dispatch : Dispatch η) (calls : Nat) :
    (dispatch.after calls).method = dispatch.method := by
  induction calls with
  | zero => rfl
  | succ calls ih => exact ih

/-- A call that gives no handler leaves no level, and one that gives a handler leaves its level. -/
theorem levels_next_eq_nil_iff (dispatch : Dispatch η) :
    dispatch.next.2.levels = [] ↔ dispatch.next.1 = none := by
  have hcall := (call_next dispatch).last_eq_nil_iff
  rwa [List.reverse_eq_nil_iff] at hcall

/-- A request without a level gives no handler, however often it is asked. -/
theorem levels_after_of_nil {dispatch : Dispatch η} (h : dispatch.levels = []) (calls : Nat) :
    (dispatch.after calls).levels = [] ∧ (dispatch.after calls).next.1 = none := by
  have hnone {other : Dispatch η} (hother : other.levels = []) :
      other.next.1 = none ∧ other.next.2.levels = [] := by
    unfold next
    rw [hother]
    exact ⟨rfl, rfl⟩
  induction calls with
  | zero => exact ⟨h, (hnone h).1⟩
  | succ calls ih =>
    have hlevels : (dispatch.after (calls + 1)).levels = [] := (hnone ih.1).2
    exact ⟨hlevels, (hnone hlevels).1⟩

/-- No level is left just if some call before has given no handler. -/
theorem levels_after_eq_nil_iff (router : Router η) (method : Method) (path : Text) (calls : Nat) :
    ((router.dispatch method path).after calls).levels = [] ↔
      ∃ earlier < calls, ((router.dispatch method path).after earlier).next.1 = none := by
  induction calls with
  | zero =>
    refine iff_of_false (List.cons_ne_nil _ _) ?_
    rintro ⟨earlier, hearlier, -⟩
    exact Nat.not_lt_zero earlier hearlier
  | succ calls ih =>
    rw [after, levels_next_eq_nil_iff]
    constructor
    · intro hnone
      exact ⟨calls, Nat.lt_succ_self calls, hnone⟩
    · rintro ⟨earlier, hearlier, hnone⟩
      by_cases hlast : earlier = calls
      · exact hlast ▸ hnone
      · have hbefore : earlier < calls := by omega
        exact (levels_after_of_nil (ih.2 ⟨earlier, hbefore, hnone⟩) 0).2

theorem chained_after (router : Router η) (method : Method) (path : Text) (calls : Nat) :
    Chained router method ((router.dispatch method path).after calls).levels.reverse := by
  induction calls with
  | zero => exact chained_dispatch router method path
  | succ calls ih =>
    obtain ⟨events, hrun⟩ := (call_next ((router.dispatch method path).after calls)).exists_run
    rw [method_after] at hrun
    exact ih.run hrun

/-- A request begins with the level of its router for its path, and levels are left until a call
gives no handler. Whatever the request has been asked for, its levels are a chain of mounts that
starts at its router and is no longer than routers are mounted in one another. The same holds after
every turn of the calls to come, and there are boundedly many of these. A call comes to its end;
when it gives no handler, no level is left, and no later call gives one. The rest of the path that a
result holds is what the match of its own router has captured. -/
theorem levels_after (router : Router η) (method : Method) (path : Text) (calls : Nat) :
    let dispatch := (router.dispatch method path).after calls
    (router.dispatch method path).levels = [⟨router, router.automaton.matchesOf path, .empty⟩] ∧
      (dispatch.levels = [] ↔
        ∃ earlier < calls, ((router.dispatch method path).after earlier).next.1 = none) ∧
      Chained router method dispatch.levels.reverse ∧
      dispatch.levels.length ≤ 1 + router.mountHeight ∧
      (∃ bound, ∀ events stack, Run method dispatch.levels.reverse events stack →
        events.length ≤ bound ∧ Chained router method stack ∧
        stack.length ≤ 1 + router.mountHeight) ∧
      Call method dispatch.levels.reverse dispatch.next.1 dispatch.next.2.levels.reverse ∧
      (dispatch.next.1 = none → dispatch.next.2.levels = [] ∧
        ∀ more, (dispatch.next.2.after more).next.1 = none) ∧
      ∀ result, dispatch.next.1 = some result → ∃ outer owner found,
        dispatch.next.2.levels = outer ++ [owner] ∧ GivenBy owner found result ∧
        result.params.get? remainderName = found.params.get? remainderName := by
  intro dispatch
  have hchained : Chained router method dispatch.levels.reverse :=
    chained_after router method path calls
  have hcall := call_next dispatch
  rw [show dispatch.method = method from method_after _ calls] at hcall
  refine ⟨rfl, levels_after_eq_nil_iff router method path calls, hchained, ?_, hchained.runs_le,
    hcall, ?_, ?_⟩
  · rw [← List.length_reverse]
    exact hchained.length_le
  · intro hnone
    have hleft := (levels_next_eq_nil_iff dispatch).2 hnone
    exact ⟨hleft, fun more => (levels_after_of_nil hleft more).2⟩
  · intro result hresult
    rw [hresult] at hcall
    obtain ⟨owner, outer, found, hlast, hgiven⟩ := hchained.givenBy hcall
    obtain ⟨events, hrun⟩ := hcall.exists_run
    -- What the mounts around a level have captured comes to it without the rest of the path.
    have howner : owner.inherited.get? remainderName = none := by
      apply (hchained.run hrun).inherited
      rw [hlast]
      exact List.mem_cons_self
    refine ⟨outer.reverse, owner, found, ?_, hgiven, hgiven.remainder howner⟩
    rw [← List.reverse_cons, ← hlast, List.reverse_reverse]

end Dispatch

end RoutePattern
