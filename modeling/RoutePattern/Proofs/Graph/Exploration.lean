import RoutePattern.Proofs.Graph.Walks

/-!
# How an exploration ends

Where no walk of a graph is longer than the search allows (`Roomy`), an exploration does nothing
but to record the walks one after the other (`exploreFrom_eq_foldlM`). So it lists all of them, or
it fails at the first one behind `maxPaths` others, and with no other error (`walks_eq_ite`).
-/

namespace RoutePattern

variable {τ : Type}

/-- One more path behind those found, unless they are `maxPaths` already. -/
def record (found : Array (Path τ)) (path : Path τ) : Except PatternError (Array (Path τ)) :=
  if found.size = maxPaths then .error .tooManyPaths else .ok (found.push path)

/-- Walks from the state `id` meet only states that are there, and end or get stuck after at most
`room` edges. -/
def Roomy (graph : Graph τ) : (room id : Nat) → Prop
  | room, id =>
    match graph[id]? with
    | none => False
    | some state => state.kind.isAccept = true ∨
      match room with
      | 0 => state.next = #[]
      | room + 1 => ∀ target ∈ state.next, Roomy graph room target

theorem foldlM_flatMap_eq {ε α β γ : Type} {f : γ → β → Except ε γ} {g : α → List β} {xs : List α}
    {first : γ} :
    (xs.flatMap g).foldlM f first = xs.foldlM (fun found x => (g x).foldlM f found) first := by
  induction xs generalizing first with
  | nil => rfl
  | cons x xs ih =>
    rw [List.flatMap_cons, List.foldlM_append, List.foldlM_cons]
    exact congrArg _ (funext fun _ => ih)

theorem foldlM_congr_eq {ε α γ : Type} {f g : γ → α → Except ε γ} {xs : List α} {first : γ}
    (h : ∀ x ∈ xs, ∀ found, f found x = g found x) : xs.foldlM f first = xs.foldlM g first := by
  induction xs generalizing first with
  | nil => rfl
  | cons x xs ih =>
    rw [List.forall_mem_cons] at h
    rw [List.foldlM_cons, List.foldlM_cons, h.1]
    exact congrArg _ (funext fun _ => ih h.2)

/-- An exploration records the walks, behind its trail. -/
theorem exploreFrom_eq_foldlM {graph : Graph τ} {room id : Nat} {trail : Path τ}
    {found : Array (Path τ)} (h : Roomy graph room id) :
    exploreFrom graph room id trail found =
      ((walksFrom graph room id).map (trail.reverse ++ ·)).foldlM record found := by
  fun_induction walksFrom graph room id generalizing trail found with
  | case1 room id hnone =>
    rw [Roomy.eq_def] at h
    simp [hnone] at h
  | case2 room id state hstate hkind =>
    rw [exploreFrom.eq_def]
    simp only [hstate, hkind, ↓reduceIte, List.map_cons, List.map_nil, List.foldlM_cons,
      List.foldlM_nil, bind_pure, record, List.reverse_cons]
  | case3 id state hstate hkind =>
    rw [Roomy.eq_def] at h
    simp only [hstate, hkind, Bool.false_eq_true, false_or] at h
    rw [exploreFrom.eq_def]
    simp [hstate, hkind, h, pure, Except.pure]
  | case4 id state hstate hkind room ih =>
    rw [Roomy.eq_def] at h
    simp only [hstate, hkind, Bool.false_eq_true, false_or] at h
    rw [exploreFrom.eq_def, List.map_flatMap, foldlM_flatMap_eq]
    simp only [hstate, hkind, Bool.false_eq_true, ↓reduceIte]
    refine foldlM_congr_eq fun target htarget found => ?_
    rw [ih target (h target (Array.mem_toList_iff.1 htarget)), List.map_map]
    simp [Function.comp_def]

theorem foldlM_record {paths : List (Path τ)} {found : Array (Path τ)}
    (hfound : found.size ≤ maxPaths) : paths.foldlM record found =
      if found.size + paths.length ≤ maxPaths then .ok (found ++ paths.toArray)
      else .error .tooManyPaths := by
  induction paths generalizing found with
  | nil => simp [hfound, pure, Except.pure]
  | cons path paths ih =>
    rw [List.foldlM_cons, record, List.length_cons]
    split
    · next hfull =>
      -- The path that does not fit is the one too many.
      rw [if_neg (by omega)]
      rfl
    · next hroom =>
      have hpush : (found.push path).size ≤ maxPaths := by
        rw [Array.size_push]
        omega
      refine (ih hpush).trans ?_
      rw [Array.size_push, Nat.add_assoc, Nat.add_comm 1]
      split
      · simp
      · rfl

/-- The walks are listed, unless they are too many. -/
theorem walks_eq_ite {graph : Graph τ} (hstart : graph[0]?.map State.kind = some .start)
    (h : Roomy graph graph.size 0) : walks graph =
      if (walksFrom graph graph.size 0).length ≤ maxPaths then
        .ok ((walksFrom graph graph.size 0).map List.tail)
      else .error .tooManyPaths := by
  unfold walks
  rw [hstart]
  simp only
  rw [exploreFrom_eq_foldlM h, foldlM_record (Nat.zero_le _)]
  simp only [List.reverse_nil, List.nil_append, List.map_id', List.size_toArray, List.length_nil,
    Nat.zero_add]
  split
  · simp [bind, Except.bind, pure, Except.pure]
  · rfl

end RoutePattern
