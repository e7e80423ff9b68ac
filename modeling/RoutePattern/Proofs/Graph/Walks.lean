import RoutePattern.Graph.Walks
import RoutePattern.Proofs.Automaton.Layout

/-!
# The walks that are listed

`Walk` is a walk of a graph to an end state, as the path of the kinds that it meets; `walksFrom`
lists the walks with a bounded number of edges. An exploration that meets no error adds just this
list to what it has found (`exploreFrom_eq_ok`), and then the bound has cut off no walk
(`mem_walksFrom_of_exploreFrom`). So the paths of `walks` are those of all walks from the start
state (`mem_walks_iff`), and each of them ends in its only end state (`ends_of_mem_walks`).
-/

namespace RoutePattern

variable {τ : Type}

/-- A walk from the state `id` to an end state, as the path of the kinds that it meets. A state is
looked up by its id. -/
inductive Walk (look : Nat → Option (State τ)) : (id : Nat) → Path τ → Prop
  | accept {id : Nat} {state : State τ} (hstate : look id = some state)
      (hkind : state.kind.isAccept = true) : Walk look id [state.kind]
  | step {id target : Nat} {state : State τ} {path : Path τ} (hstate : look id = some state)
      (hkind : state.kind.isAccept = false) (hedge : target ∈ state.next)
      (hwalk : Walk look target path) : Walk look id (state.kind :: path)

/-- The states of a graph by their ids. -/
def Graph.look (graph : Graph τ) (id : Nat) : Option (State τ) := graph[id]?

/-- The walks from the state `id` with at most `room` edges, the first edges first. -/
def walksFrom (graph : Graph τ) : (room id : Nat) → List (Path τ)
  | room, id =>
    match graph[id]? with
    | none => []
    | some state =>
      if state.kind.isAccept then [[state.kind]]
      else match room with
        | 0 => []
        | room + 1 => state.next.toList.flatMap fun target =>
          (walksFrom graph room target).map (state.kind :: ·)

theorem Walk.ends {look : Nat → Option (State τ)} {id : Nat} {path : Path τ}
    (h : Walk look id path) : ∃ tag, path.Ends tag := by
  induction h with
  | @accept id state hstate hkind =>
    cases hk : state.kind with
    | accept tag => exact ⟨tag, .last tag⟩
    | start => simp [hk, Kind.isAccept] at hkind
    | fixed text => simp [hk, Kind.isAccept] at hkind
    | capture name => simp [hk, Kind.isAccept] at hkind
  | step _ hkind _ _ ih =>
    obtain ⟨tag, htag⟩ := ih
    exact ⟨tag, .cons hkind htag⟩

theorem walk_of_mem_walksFrom {graph : Graph τ} {room id : Nat} {path : Path τ}
    (h : path ∈ walksFrom graph room id) : Walk graph.look id path := by
  fun_induction walksFrom graph room id generalizing path with
  | case1 => simp at h
  | case2 room id state hstate hkind =>
    obtain rfl := List.mem_singleton.1 h
    exact .accept hstate hkind
  | case3 => simp at h
  | case4 id state hstate hkind room ih =>
    obtain ⟨target, htarget, hmem⟩ := List.mem_flatMap.1 h
    obtain ⟨rest, hrest, rfl⟩ := List.mem_map.1 hmem
    exact .step hstate (Bool.eq_false_iff.2 hkind) (Array.mem_toList_iff.1 htarget)
      (ih target hrest)

/-! ## Exploration without an error -/

/-- Every element of a list that is folded without an error has its step done without one. -/
theorem exists_step_of_foldlM_eq_ok {ε α β : Type} {f : β → α → Except ε β} {xs : List α}
    {first last : β} (h : xs.foldlM f first = .ok last) {x : α} (hx : x ∈ xs) :
    ∃ before after, f before x = .ok after := by
  induction xs generalizing first with
  | nil => simp at hx
  | cons y xs ih =>
    rw [List.foldlM_cons, bind_eq_ok_iff] at h
    obtain ⟨next, hnext, hrest⟩ := h
    rcases List.mem_cons.1 hx with rfl | hmem
    · exact ⟨first, next, hnext⟩
    · exact ih hrest hmem

theorem exists_step_of_foldlM_eq_error {ε α β : Type} {f : β → α → Except ε β} {xs : List α}
    {first : β} {e : ε} (h : xs.foldlM f first = .error e) : ∃ before x, f before x = .error e := by
  induction xs generalizing first with
  | nil => cases h
  | cons y xs ih =>
    rw [List.foldlM_cons, bind_eq_error_iff] at h
    rcases h with hfirst | ⟨next, -, hrest⟩
    · exact ⟨first, y, hfirst⟩
    · exact ih hrest

/-- A fold whose steps each add a list adds the lists one after the other. -/
theorem toList_of_foldlM_eq_ok {ε α β : Type} {f : Array β → α → Except ε (Array β)}
    {g : α → List β} (hf : ∀ before x after, f before x = .ok after →
      after.toList = before.toList ++ g x) {xs : List α} {first last : Array β}
    (h : xs.foldlM f first = .ok last) : last.toList = first.toList ++ xs.flatMap g := by
  induction xs generalizing first with
  | nil =>
    obtain rfl := pure_eq_ok_iff.1 h
    simp
  | cons x xs ih =>
    rw [List.foldlM_cons, bind_eq_ok_iff] at h
    obtain ⟨next, hnext, hrest⟩ := h
    rw [ih hrest, hf _ _ _ hnext, List.flatMap_cons, List.append_assoc]

/-- An exploration without an error adds the walks that it has room for, behind its trail. -/
theorem exploreFrom_eq_ok {graph : Graph τ} {room id : Nat} {trail : Path τ}
    {found result : Array (Path τ)} (h : exploreFrom graph room id trail found = .ok result) :
    result.toList = found.toList ++ (walksFrom graph room id).map (trail.reverse ++ ·) := by
  fun_induction exploreFrom graph room id trail found generalizing result with
  | case1 => cases h
  | case2 => cases h
  | case3 room id trail found state hstate longer hkind =>
    obtain rfl := Except.ok.inj h
    rw [walksFrom.eq_def]
    simp [hstate, hkind, longer]
  | case4 id trail found state hstate hkind hempty =>
    obtain rfl := Except.ok.inj h
    rw [walksFrom.eq_def]
    simp [hstate, hkind]
  | case5 => cases h
  | case6 id trail found state hstate longer hkind room =>
    next ih =>
      rw [toList_of_foldlM_eq_ok (fun found target _ => ih found target) h, walksFrom.eq_def]
      simp [hstate, hkind, longer, List.map_flatMap, Function.comp_def]

/-- An exploration without an error has had room for every walk. -/
theorem mem_walksFrom_of_exploreFrom {graph : Graph τ} {room id : Nat} {trail : Path τ}
    {found result : Array (Path τ)} (h : exploreFrom graph room id trail found = .ok result)
    {path : Path τ} (hwalk : Walk graph.look id path) : path ∈ walksFrom graph room id := by
  induction hwalk generalizing room trail found result with
  | @accept id state hstate hkind =>
    unfold Graph.look at hstate
    rw [walksFrom.eq_def]
    simp [hstate, hkind]
  | @step id target state path hstate hkind hedge _ ih =>
    unfold Graph.look at hstate
    rw [exploreFrom.eq_def] at h
    simp only [hstate, hkind, Bool.false_eq_true, ↓reduceIte] at h
    rw [walksFrom.eq_def]
    simp only [hstate, hkind, Bool.false_eq_true, ↓reduceIte]
    cases room with
    | zero =>
      -- There is an edge to follow, so an exploration without room has met an error.
      simp only at h
      split at h
      · next hempty => simp [Array.isEmpty_iff.1 hempty] at hedge
      · simp at h
    | succ room =>
      have htarget := Array.mem_toList_iff.2 hedge
      obtain ⟨before, after, hstep⟩ := exists_step_of_foldlM_eq_ok h htarget
      exact List.mem_flatMap.2 ⟨target, htarget, List.mem_map.2 ⟨path, ih hstep, rfl⟩⟩

/-! ## The walks from the start state -/

theorem walks_eq_ok {graph : Graph τ} {found : List (Path τ)} (h : walks graph = .ok found) :
    ∃ next result, graph[0]? = some ⟨.start, next⟩ ∧
      exploreFrom graph graph.size 0 [] #[] = .ok result ∧ found = result.toList.map List.tail := by
  unfold walks at h
  split at h
  · next hstart =>
    obtain ⟨⟨kind, next⟩, hstate, hkind⟩ := Option.map_eq_some_iff.1 hstart
    obtain rfl : kind = .start := hkind
    obtain ⟨result, hresult, hfound⟩ := bind_eq_ok_iff.1 h
    exact ⟨next, result, hstate, hresult, (pure_eq_ok_iff.1 hfound).symm⟩
  · simp at h

/-- The paths that are listed are those of the walks from the start state. -/
theorem mem_walks_iff {graph : Graph τ} {found : List (Path τ)} (h : walks graph = .ok found)
    {path : Path τ} : path ∈ found ↔ Walk graph.look 0 (.start :: path) := by
  obtain ⟨next, result, hstate, hresult, rfl⟩ := walks_eq_ok h
  have hlist := exploreFrom_eq_ok hresult
  simp only [List.reverse_nil, List.nil_append, List.map_id'] at hlist
  rw [hlist]
  constructor
  · intro hpath
    obtain ⟨whole, hwhole, rfl⟩ := List.mem_map.1 hpath
    have hwalk := walk_of_mem_walksFrom hwhole
    cases hwalk with
    | accept hother hkind =>
      obtain rfl := Option.some.inj (hstate.symm.trans hother)
      simp [Kind.isAccept] at hkind
    | step hother hkind hedge hrest =>
      obtain rfl := Option.some.inj (hstate.symm.trans hother)
      exact .step hstate rfl hedge hrest
  · intro hwalk
    exact List.mem_map.2 ⟨_, mem_walksFrom_of_exploreFrom hresult hwalk, rfl⟩

theorem ends_of_mem_walks {graph : Graph τ} {found : List (Path τ)} (h : walks graph = .ok found)
    {path : Path τ} (hpath : path ∈ found) : ∃ tag, path.Ends tag := by
  obtain ⟨tag, htag⟩ := ((mem_walks_iff h).1 hpath).ends
  cases htag with
  | cons _ hrest => exact ⟨tag, hrest⟩

end RoutePattern
