import RoutePattern.Proofs.Graph.Exploration
import RoutePattern.Proofs.Graph.Order
import RoutePattern.Proofs.Graph.Places

/-!
# The runs of a wiring in order

`Wiring.runs` lists the runs from a state to the end state, the first edge first. Where every edge
goes to a greater rank, these are all runs (`mem_runs_iff`), and the graph of the wiring has room
for them (`roomy_toGraph`); its walks are the kinds met on them (`walksFrom_toGraph`). No run is
listed twice, and runs along ascending edges come in the order of the ranks (`pairwise_runs`).
-/

namespace RoutePattern

namespace Wiring

variable {wiring : Wiring} {last : Nat}

/-- The runs from the state `id` to `last` with at most `room` edges, as the states that they come
to. -/
def runs (wiring : Wiring) (last : Nat) : (room id : Nat) → List (List Nat)
  | room, id =>
    if id = last then [[]]
    else match room with
      | 0 => []
      | room + 1 => (wiring.next id).flatMap fun target =>
        (runs wiring last room target).map (target :: ·)

theorem nodup_runs (h : wiring.Simple) (room id : Nat) : (wiring.runs last room id).Nodup := by
  fun_induction runs wiring last room id with
  | case1 => exact List.pairwise_singleton _ _
  | case2 => exact List.nodup_nil
  | case3 id hid room ih =>
    refine List.pairwise_flatMap.2 ⟨fun target _ => ?_, ?_⟩
    · exact List.pairwise_map.2 ((ih target).imp fun hne heq => hne (List.cons_eq_cons.1 heq).2)
    · refine (h id).imp fun hne ids hids other hother heq => ?_
      obtain ⟨rest, -, rfl⟩ := List.mem_map.1 hids
      obtain ⟨_, -, rfl⟩ := List.mem_map.1 hother
      exact hne (List.cons_eq_cons.1 heq).1

/-- Along ascending edges each run is earlier than all runs behind it. -/
theorem pairwise_runs {rank : Nat → Nat} (h : wiring.Ascending rank) (room id : Nat) :
    (wiring.runs last room id).Pairwise (Earlier rank) := by
  fun_induction runs wiring last room id with
  | case1 => exact List.pairwise_singleton _ _
  | case2 => exact List.Pairwise.nil
  | case3 id hid room ih =>
    refine List.pairwise_flatMap.2 ⟨fun target _ => ?_, ?_⟩
    · exact List.pairwise_map.2 ((ih target).imp .same)
    · refine (h id).imp fun hrank ids hids other hother => ?_
      obtain ⟨rest, -, rfl⟩ := List.mem_map.1 hids
      obtain ⟨behind, -, rfl⟩ := List.mem_map.1 hother
      exact .lower hrank

/-! ## Ranks as a bound -/

section Ranks

variable {rank : Nat → Nat} (hrank : ∀ edge ∈ wiring.edges, rank edge.1 < rank edge.2)

include hrank

theorem mem_runs_iff (hstop : ∀ target, (last, target) ∉ wiring.edges) {room id : Nat}
    (hroom : rank last ≤ room + rank id) {ids : List Nat} :
    ids ∈ wiring.runs last room id ↔ Run wiring.edges last id ids := by
  fun_induction runs wiring last room id generalizing ids with
  | case1 room =>
    rw [List.mem_singleton]
    constructor
    · rintro rfl
      exact .stop
    · intro h
      cases h with
      | stop => rfl
      | step hedge _ => exact absurd hedge (hstop _)
  | case2 id hid =>
    -- Without room the state is not below the last one, but a run climbs to the last one.
    refine iff_of_false List.not_mem_nil fun h => ?_
    have hle : rank id < rank last := by
      clear hroom
      induction h with
      | stop => exact absurd rfl hid
      | @step id target ids hedge _ ih =>
        have hlt := hrank _ hedge
        by_cases htarget : target = last
        · exact htarget ▸ hlt
        · exact hlt.trans (ih htarget)
    omega
  | case3 id hid room ih =>
    rw [List.mem_flatMap]
    have hnext (target : Nat) (htarget : target ∈ wiring.next id) :
        rank last ≤ room + rank target := by
      have hlt : rank id < rank target := hrank (id, target) htarget
      omega
    constructor
    · rintro ⟨target, htarget, hmem⟩
      obtain ⟨rest, hrest, rfl⟩ := List.mem_map.1 hmem
      exact .step htarget ((ih target (hnext target htarget)).1 hrest)
    · intro h
      cases h with
      | stop => exact absurd rfl hid
      | step hedge hrun =>
        exact ⟨_, hedge, List.mem_map.2 ⟨_, (ih _ (hnext _ hedge)).2 hrun, rfl⟩⟩

/-- A walk comes to an end before the ranks do. -/
theorem roomy_toGraph (hclosed : ∀ edge ∈ wiring.edges, edge.2 ∈ wiring) {most : Nat}
    (hmost : ∀ id ∈ wiring, rank id ≤ most) {room id : Nat} (hid : id ∈ wiring)
    (hroom : most ≤ room + rank id) : Roomy wiring.toGraph room (wiring.place id) := by
  induction room generalizing id with
  | zero =>
    obtain ⟨state, hstate⟩ := mem_iff_exists_getElem?.1 hid
    rw [Roomy.eq_def]
    simp only [getElem?_toGraph hstate]
    refine .inr ?_
    have hnone (target : Nat) : target ∉ state.next := by
      intro htarget
      have hedge := (mem_edges_iff_of_getElem? hstate).2 htarget
      have hlt := hrank _ hedge
      have hle := hmost target (hclosed _ hedge)
      simp only at hlt
      omega
    simp only [placed, Array.map_eq_empty_iff]
    exact Array.eq_empty_iff_forall_not_mem.2 hnone
  | succ room ih =>
    obtain ⟨state, hstate⟩ := mem_iff_exists_getElem?.1 hid
    rw [Roomy.eq_def]
    simp only [getElem?_toGraph hstate]
    refine .inr fun place hplace => ?_
    obtain ⟨target, htarget, rfl⟩ := Array.mem_map.1 hplace
    have hedge := (mem_edges_iff_of_getElem? hstate).2 htarget
    have hlt := hrank _ hedge
    simp only at hlt
    exact ih (hclosed _ hedge) (by omega)

end Ranks

/-- The walks of the graph meet the kinds of the states that the runs come to. -/
theorem walksFrom_toGraph (hclosed : ∀ edge ∈ wiring.edges, edge.2 ∈ wiring)
    (haccept : ∀ id kind, wiring.kind? id = some kind → (kind.isAccept = true ↔ id = last))
    (room : Nat) {id : Nat} (hid : id ∈ wiring) : walksFrom wiring.toGraph room (wiring.place id) =
      (wiring.runs last room id).map fun ids => (id :: ids).filterMap wiring.kind? := by
  fun_induction runs wiring last room id with
  | case1 room =>
    obtain ⟨state, hstate⟩ := mem_iff_exists_getElem?.1 hid
    have hown := kind?_of_getElem? hstate
    rw [walksFrom.eq_def]
    simp only [getElem?_toGraph hstate, placed, (haccept last _ hown).2 rfl, ↓reduceIte]
    simp [hown]
  | case2 id hlast =>
    obtain ⟨state, hstate⟩ := mem_iff_exists_getElem?.1 hid
    have hown := kind?_of_getElem? hstate
    have hkind : state.kind.isAccept = false := by simpa [hlast] using haccept id _ hown
    rw [walksFrom.eq_def]
    simp [getElem?_toGraph hstate, placed, hkind]
  | case3 id hlast room ih =>
    obtain ⟨state, hstate⟩ := mem_iff_exists_getElem?.1 hid
    have hown := kind?_of_getElem? hstate
    have hkind : state.kind.isAccept = false := by simpa [hlast] using haccept id _ hown
    rw [walksFrom.eq_def]
    simp only [getElem?_toGraph hstate, placed, hkind, Bool.false_eq_true, ↓reduceIte,
      Array.toList_map, List.flatMap_map, List.map_flatMap, List.map_map, next_of_getElem? hstate]
    refine List.flatMap_congr fun target htarget => ?_
    have hedge := (mem_edges_iff_of_getElem? hstate).2 (Array.mem_toList_iff.1 htarget)
    rw [ih target (hclosed _ hedge), List.map_map]
    refine List.map_congr_left fun ids _ => ?_
    simp [hown]

end Wiring

end RoutePattern
