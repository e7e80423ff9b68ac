import RoutePattern.Proofs.Graph.Walks
import RoutePattern.Proofs.Graph.Wiring

/-!
# States in their places

`toGraph` leads every edge to the place of its state, so the walks of the graph are the walks of
the wiring (`walk_toGraph_iff`). The state with the least id comes first and the one with the
greatest id last.
-/

namespace RoutePattern

namespace Wiring

variable {wiring : Wiring} {id : Nat} {state : State Unit}

/-- The place of a state in the graph. -/
def place (wiring : Wiring) (id : Nat) : Nat := wiring.places.getD id 0

/-- The state with its edges led to places. -/
def placed (wiring : Wiring) (state : State Unit) : State Unit :=
  { state with next := state.next.map wiring.place }

/-- Distinct keys that are numbered one after the other lead to their numbers. -/
theorem getElem?_foldl_zipIdx {keys : List Nat} (hnodup : keys.Nodup) (first : Nat)
    (places : Std.TreeMap Nat Nat) (id : Nat) :
    ((keys.zipIdx first).foldl (fun places (id, place) => places.insert id place) places)[id]? =
      if id ∈ keys then some (first + keys.idxOf id) else places[id]? := by
  induction keys generalizing first places with
  | nil => rfl
  | cons key keys ih =>
    rw [List.nodup_cons] at hnodup
    rw [List.zipIdx_cons, List.foldl_cons, ih hnodup.2, Std.TreeMap.getElem?_insert]
    by_cases h : key = id
    · subst h
      simp [hnodup.1]
    · rw [List.idxOf_cons_ne _ h]
      simp [h, Ne.symm h, Nat.add_assoc, Nat.add_comm 1]

/-- The place of a state is that of its id among the ids. -/
theorem place_eq_idxOf (h : id ∈ wiring) : wiring.place id = wiring.keys.idxOf id := by
  have hnodup : wiring.keys.Nodup := Std.TreeMap.nodup_keys
  rw [place, places, Std.TreeMap.getD_eq_getD_getElem?, getElem?_foldl_zipIdx hnodup,
    if_pos (Std.TreeMap.mem_keys.2 h), Option.getD_some, Nat.zero_add]

theorem pairwise_keys (wiring : Wiring) : wiring.keys.Pairwise (· < ·) :=
  Std.TreeMap.ordered_keys.imp Nat.compare_eq_lt.1

theorem size_toGraph_eq_length (wiring : Wiring) :
    wiring.toGraph.size = wiring.keys.length := by
  rw [toGraph, List.size_toArray, List.length_map, ← Std.TreeMap.map_fst_toList_eq_keys,
    List.length_map]

theorem place_lt_size (h : id ∈ wiring) : wiring.place id < wiring.toGraph.size := by
  rw [place_eq_idxOf h, size_toGraph_eq_length]
  exact List.idxOf_lt_length_of_mem (Std.TreeMap.mem_keys.2 h)

/-- Two states do not share a place. -/
theorem place_inj {other : Nat} (hid : id ∈ wiring) (hother : other ∈ wiring)
    (h : wiring.place id = wiring.place other) : id = other := by
  rw [place_eq_idxOf hid, place_eq_idxOf hother] at h
  exact (List.idxOf_inj (Std.TreeMap.mem_keys.2 hid)).1 h

/-- A greater id has a greater place. -/
theorem place_lt_place {other : Nat} (hid : id ∈ wiring) (hother : other ∈ wiring)
    (hlt : id < other) : wiring.place id < wiring.place other := by
  have hget {id : Nat} (hid : id ∈ wiring) : wiring.keys[wiring.place id]? = some id := by
    rw [place_eq_idxOf hid]
    exact List.getElem?_idxOf (Std.TreeMap.mem_keys.2 hid)
  obtain ⟨hfirst, hidEq⟩ := List.getElem?_eq_some_iff.1 (hget hid)
  obtain ⟨hsecond, hotherEq⟩ := List.getElem?_eq_some_iff.1 (hget hother)
  rcases Nat.lt_trichotomy (wiring.place id) (wiring.place other) with hplace | hplace | hplace
  · exact hplace
  · exact absurd (place_inj hid hother hplace) (Nat.ne_of_lt hlt)
  · have hback := List.pairwise_iff_getElem.1 (pairwise_keys wiring) _ _ hsecond hfirst hplace
    omega

theorem exists_place_eq {place : Nat} (h : place < wiring.toGraph.size) :
    ∃ id, id ∈ wiring ∧ wiring.place id = place := by
  rw [size_toGraph_eq_length] at h
  have hmem : wiring.keys[place] ∈ wiring := Std.TreeMap.mem_keys.1 (List.getElem_mem h)
  refine ⟨wiring.keys[place], hmem, ?_⟩
  rw [place_eq_idxOf hmem]
  have hnodup : wiring.keys.Nodup := Std.TreeMap.nodup_keys
  exact hnodup.idxOf_getElem place h

theorem map_kind_toGraph (wiring : Wiring) :
    (wiring.toGraph.toList.map State.kind).map some = wiring.keys.map wiring.kind? := by
  rw [toGraph, ← Std.TreeMap.map_fst_toList_eq_keys, List.map_map, List.map_map, List.map_map]
  refine List.map_congr_left fun entry hentry => ?_
  have hget := Std.TreeMap.mem_toList_iff_getElem?_eq_some.1 hentry
  exact (kind?_of_getElem? hget).symm

/-- At the place of an id stands its state. -/
theorem getElem?_toGraph (h : wiring[id]? = some state) :
    wiring.toGraph[wiring.place id]? = some (wiring.placed state) := by
  obtain ⟨i, hi, hget⟩ := List.mem_iff_getElem.1
    (Std.TreeMap.mem_toList_iff_getElem?_eq_some.2 h)
  have hkeys : wiring.keys = wiring.toList.map Prod.fst :=
    Std.TreeMap.map_fst_toList_eq_keys.symm
  have hlength : i < wiring.keys.length := by
    rw [hkeys, List.length_map]
    exact hi
  have hid : wiring.keys[i] = id := by simp only [hkeys, List.getElem_map, hget]
  have hplace : wiring.place id = i := by
    have hnodup : wiring.keys.Nodup := Std.TreeMap.nodup_keys
    rw [place_eq_idxOf (mem_iff_exists_getElem?.2 ⟨state, h⟩)]
    exact hid ▸ hnodup.idxOf_getElem i hlength
  rw [hplace, toGraph, List.getElem?_toArray, List.getElem?_map, List.getElem?_eq_getElem hi, hget]
  rfl

/-- Every state of the graph has the place of an id. -/
theorem exists_of_getElem?_toGraph {place : Nat} (h : wiring.toGraph[place]? = some state) :
    ∃ (id : Nat) (own : State Unit),
      wiring[id]? = some own ∧ wiring.place id = place ∧ state = wiring.placed own := by
  obtain ⟨id, hid, rfl⟩ := exists_place_eq (Array.getElem?_eq_some_iff.1 h).1
  obtain ⟨own, hown⟩ := mem_iff_exists_getElem?.1 hid
  exact ⟨id, own, hown, rfl, Option.some.inj (h.symm.trans (getElem?_toGraph hown))⟩

theorem map_kind_getElem?_toGraph (h : id ∈ wiring) :
    wiring.toGraph[wiring.place id]?.map State.kind = wiring.kind? id := by
  obtain ⟨state, hstate⟩ := mem_iff_exists_getElem?.1 h
  rw [getElem?_toGraph hstate, kind?_of_getElem? hstate]
  rfl

/-- The state with the least id comes first. -/
theorem place_zero (h : 0 ∈ wiring) : wiring.place 0 = 0 := by
  rw [place_eq_idxOf h]
  cases hkeys : wiring.keys with
  | nil =>
    have := Std.TreeMap.mem_keys.2 h
    simp [hkeys] at this
  | cons key keys =>
    have hmem := Std.TreeMap.mem_keys.2 h
    have hordered := pairwise_keys wiring
    rw [hkeys] at hmem hordered
    rcases List.mem_cons.1 hmem with rfl | hmem
    · exact List.idxOf_cons_self
    · have := List.rel_of_pairwise_cons hordered hmem
      omega

/-- The state with the greatest id comes last. -/
theorem back?_toGraph (h : wiring[id]? = some state) (hmax : ∀ other ∈ wiring, other ≤ id) :
    wiring.toGraph.back? = some (wiring.placed state) := by
  have hmem := Std.TreeMap.mem_toList_iff_getElem?_eq_some.2 h
  have hlast : wiring.toList.getLast? = some (id, state) := by
    obtain ⟨before, after, heq⟩ := List.append_of_mem hmem
    have hordered := Std.TreeMap.ordered_keys_toList (t := wiring)
    cases after with
    | nil => rw [heq, List.getLast?_concat]
    | cons other after =>
      -- A later state would have a greater id.
      have hother : (other.1, other.2) ∈ wiring.toList := by simp [heq]
      have hget := Std.TreeMap.mem_toList_iff_getElem?_eq_some.1 hother
      have hle := hmax other.1 (mem_iff_exists_getElem?.2 ⟨other.2, hget⟩)
      rw [heq, List.pairwise_append] at hordered
      have := List.rel_of_pairwise_cons hordered.2.1 List.mem_cons_self
      simp only [Nat.compare_eq_lt] at this
      omega
  simp only [toGraph, List.back?_toArray, List.getLast?_map, hlast, Option.map_some]
  rfl

/-! ## Walks -/

/-- The states by their ids. -/
def look (wiring : Wiring) (id : Nat) : Option (State Unit) := wiring[id]?

/-- A walk of the wiring goes through the places of its states. -/
theorem walk_toGraph_of_walk {path : Path Unit} (h : Walk wiring.look id path) :
    Walk wiring.toGraph.look (wiring.place id) path := by
  induction h with
  | @accept id state hstate hkind =>
    have hplaced : wiring.toGraph.look (wiring.place id) = some (wiring.placed state) :=
      getElem?_toGraph hstate
    have hwalk := Walk.accept hplaced hkind
    exact hwalk
  | @step id target state path hstate hkind hedge _ ih =>
    have hplaced : wiring.toGraph.look (wiring.place id) = some (wiring.placed state) :=
      getElem?_toGraph hstate
    have hwalk := Walk.step hplaced hkind (Array.mem_map_of_mem hedge) ih
    exact hwalk

theorem walk_of_walk_toGraph (hclosed : ∀ edge ∈ wiring.edges, edge.2 ∈ wiring) {place : Nat}
    {path : Path Unit} (h : Walk wiring.toGraph.look place path) (hid : id ∈ wiring)
    (hplace : wiring.place id = place) : Walk wiring.look id path := by
  obtain ⟨own, hown⟩ := mem_iff_exists_getElem?.1 hid
  have hplaced : wiring.toGraph.look place = some (wiring.placed own) :=
    hplace ▸ getElem?_toGraph hown
  induction h generalizing id own with
  | accept hstate hkind =>
    obtain rfl := Option.some.inj (hstate.symm.trans hplaced)
    have hwalk := Walk.accept (hown : wiring.look id = some own) hkind
    exact hwalk
  | step hstate hkind hedge _ ih =>
    obtain rfl := Option.some.inj (hstate.symm.trans hplaced)
    -- No edge of the wiring leads out of it, so the next place is that of a state.
    obtain ⟨target, htarget, rfl⟩ := Array.mem_map.1 hedge
    have hmem := hclosed (id, target) ((mem_edges_iff_of_getElem? hown).2 htarget)
    obtain ⟨next, hnext⟩ := mem_iff_exists_getElem?.1 hmem
    have hrest := ih hmem rfl next hnext (getElem?_toGraph hnext)
    have hwalk := Walk.step (hown : wiring.look id = some own) hkind htarget hrest
    exact hwalk

/-- From a state's place the graph has the walks that the wiring has from the state. -/
theorem walk_toGraph_iff (hclosed : ∀ edge ∈ wiring.edges, edge.2 ∈ wiring) (hid : id ∈ wiring)
    {path : Path Unit} :
    Walk wiring.toGraph.look (wiring.place id) path ↔ Walk wiring.look id path :=
  ⟨fun h => walk_of_walk_toGraph hclosed h hid rfl, walk_toGraph_of_walk⟩

end Wiring

end RoutePattern
