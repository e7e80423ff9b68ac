import Mathlib.Data.Set.Prod
import RoutePattern.Graph.Wiring
import RoutePattern.Proofs.Except

/-!
# Graphs under construction

`Wiring.kind?` and `Wiring.edges` are what there is to know of a graph under construction.
Adding edges between states that are there succeeds, and adds nothing but these edges
(`connectAll?_of_mem`).
-/

namespace RoutePattern

namespace Wiring

variable {wiring wired : Wiring} {id source target : Nat}

/-- The kind of a state. -/
def kind? (wiring : Wiring) (id : Nat) : Option (Kind Unit) := wiring[id]?.map State.kind

/-- The edges, as pairs of ids. -/
def edges (wiring : Wiring) : Set (Nat × Nat) := {edge | edge.2 ∈ wiring.next edge.1}

theorem mem_edges_iff : (source, target) ∈ wiring.edges ↔ target ∈ wiring.next source := Iff.rfl

theorem mem_iff_exists_getElem? : id ∈ wiring ↔ ∃ state, wiring[id]? = some state := by
  rw [Std.TreeMap.mem_iff_isSome_getElem?, Option.isSome_iff_exists]

/-- The states that are there are those that have a kind. -/
theorem mem_iff_exists_kind? : id ∈ wiring ↔ ∃ kind, wiring.kind? id = some kind := by
  rw [← Option.isSome_iff_exists, kind?, Option.isSome_map, Std.TreeMap.mem_iff_isSome_getElem?]

theorem next_of_getElem? {state : State Unit} (h : wiring[id]? = some state) :
    wiring.next id = state.next.toList := by
  rw [next, h]

theorem kind?_of_getElem? {state : State Unit} (h : wiring[id]? = some state) :
    wiring.kind? id = some state.kind := by
  rw [kind?, h]
  rfl

/-- The edges out of a state that is there. -/
theorem mem_edges_iff_of_getElem? {state : State Unit} (h : wiring[source]? = some state) :
    (source, target) ∈ wiring.edges ↔ target ∈ state.next := by
  rw [mem_edges_iff, next_of_getElem? h, Array.mem_toList_iff]

/-- Only a state that is there has edges. -/
theorem getElem?_of_mem_next (h : target ∈ wiring.next source) :
    ∃ state, wiring[source]? = some state ∧ target ∈ state.next := by
  cases hstate : wiring[source]? with
  | none => simp [next, hstate] at h
  | some state =>
    rw [next_of_getElem? hstate] at h
    exact ⟨state, rfl, Array.mem_toList_iff.1 h⟩

/-- The sources of a state are all states with an edge to it. -/
theorem mem_sources_iff : source ∈ wiring.sources id ↔ (source, id) ∈ wiring.edges := by
  simp only [sources, List.mem_filterMap, Prod.exists, mem_edges_iff,
    Std.TreeMap.mem_toList_iff_getElem?_eq_some, Option.ite_none_right_eq_some, Option.some.injEq,
    Array.contains_iff_mem]
  constructor
  · rintro ⟨_, state, hstate, hmem, rfl⟩
    exact (mem_edges_iff_of_getElem? hstate).2 hmem
  · intro h
    obtain ⟨state, hstate, hmem⟩ := getElem?_of_mem_next h
    exact ⟨source, state, hstate, hmem, rfl⟩

/-! ## More edges -/

/-- `wired` has the states of `wiring`, and these edges. -/
structure Rewired (wiring wired : Wiring) (edges : Set (Nat × Nat)) : Prop where
  kind?_eq : ∀ id, wired.kind? id = wiring.kind? id
  edges_eq : wired.edges = edges

namespace Rewired

variable {edges : Set (Nat × Nat)}

/-- No state is added or lost. -/
theorem mem_iff (h : wiring.Rewired wired edges) : id ∈ wired ↔ id ∈ wiring := by
  rw [mem_iff_exists_kind?, h.kind?_eq, ← mem_iff_exists_kind?]

theorem trans {between : Wiring} {first : Set (Nat × Nat)} (h : wiring.Rewired between first)
    (hnext : between.Rewired wired edges) : wiring.Rewired wired edges :=
  ⟨fun id => (hnext.kind?_eq id).trans (h.kind?_eq id), hnext.edges_eq⟩

end Rewired

/-- An edge between states that are there can be added, and it is the only one that is. -/
theorem connect?_of_mem (hsource : source ∈ wiring) (htarget : target ∈ wiring) :
    ∃ wired, wiring.connect? source target = .ok wired ∧
      wiring.Rewired wired (wiring.edges ∪ {(source, target)}) := by
  obtain ⟨state, hstate⟩ := mem_iff_exists_getElem?.1 hsource
  rw [connect?, Std.TreeMap.contains_iff_mem.2 htarget, hstate]
  -- An edge that is there already is not added again.
  by_cases hedge : target ∈ state.next
  · have hmem : (source, target) ∈ wiring.edges := by
      rw [mem_edges_iff, next_of_getElem? hstate]
      exact Array.mem_toList_iff.2 hedge
    refine ⟨wiring, by simp [hedge], fun _ => rfl, ?_⟩
    rw [Set.union_singleton, Set.insert_eq_of_mem hmem]
  · refine ⟨wiring.modify source fun state => { state with next := state.next.push target },
      by simp [hedge], ?_, ?_⟩
    · intro id
      by_cases h : source = id
      · subst h
        simp [kind?, hstate]
      · simp [kind?, Std.TreeMap.getElem?_modify, h]
    · ext ⟨first, second⟩
      by_cases h : source = first
      · subst h
        simp [mem_edges_iff, next, hstate, or_comm]
      · simp [mem_edges_iff, next, Std.TreeMap.getElem?_modify, h, Ne.symm h]

/-- Edges between states that are there can be added. -/
theorem connectAll?_of_mem {links : List (Nat × Nat)}
    (h : ∀ link ∈ links, link.1 ∈ wiring ∧ link.2 ∈ wiring) :
    ∃ wired, wiring.connectAll? links = .ok wired ∧
      wiring.Rewired wired (wiring.edges ∪ {link | link ∈ links}) := by
  induction links generalizing wiring with
  | nil => exact ⟨wiring, rfl, fun id => rfl, by simp⟩
  | cons link links ih =>
    obtain ⟨⟨hsource, htarget⟩, hlinks⟩ := List.forall_mem_cons.1 h
    obtain ⟨between, hbetween, hone⟩ := connect?_of_mem hsource htarget
    have hstates : ∀ other ∈ links, other.1 ∈ between ∧ other.2 ∈ between := by
      simpa only [hone.mem_iff] using hlinks
    obtain ⟨wired, hwired, hall⟩ := ih hstates
    refine ⟨wired, ?_, (hone.trans hall).kind?_eq, ?_⟩
    · rw [connectAll?, hbetween]
      exact hwired
    · rw [hall.edges_eq, hone.edges_eq]
      ext other
      simp [or_left_comm, or_assoc]

end Wiring

end RoutePattern
