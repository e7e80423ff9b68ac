import Mathlib.Data.List.Nodup
import Mathlib.Data.List.Perm.Basic
import RoutePattern.Proofs.Graph.Compile
import RoutePattern.Proofs.Graph.Runs

/-!
# The paths of a tree in order

The states of the graph of a tree are ranked in reading order, and every edge goes to a greater
rank. So the paths of the graph are those of the different ways through the tree, each once, if
they are not too many (`IsTree.exists_listing`). In an orderly tree they come in the order in which
the ways are declared.
-/

namespace RoutePattern

open Node Wiring

/-- The ids of the start state, of the leaves in reading order and of the end state. -/
def idsInOrder (nodes : List Node) : List Nat :=
  0 :: ((shapeOfSequence true nodes).leaves.map Leaf.id ++ [endId nodes])

theorem length_idsInOrder (nodes : List Node) :
    (idsInOrder nodes).length = (shapeOfSequence true nodes).leaves.length + 2 := by
  simp [idsInOrder]

/-- The place of an id in reading order. -/
def rankOf (nodes : List Node) (id : Nat) : Nat := (idsInOrder nodes).idxOf id

/-- The path along a way through a tree. -/
def Node.pathOf (way : List Leaf) : Path Unit := way.map Leaf.kind ++ [.accept ()]

theorem pairwise_idxOf {ids : List Nat} (h : ids.Nodup) : Rising (ids.idxOf ·) ids := by
  refine List.pairwise_iff_getElem.2 fun i j hi hj hlt => ?_
  show ids.idxOf ids[i] < ids.idxOf ids[j]
  rw [h.idxOf_getElem, h.idxOf_getElem]
  exact hlt

theorem exists_perm_of_perm_map {α β : Type} {f : α → β} {l : List α} {images : List β}
    (h : (l.map f).Perm images) : ∃ order : List α, order.Perm l ∧ images = order.map f := by
  have hcomp : Relation.Comp (List.Forall₂ fun x y => y = f x) List.Perm l images :=
    ⟨l.map f, List.forall₂_map_right_iff.2 (List.forall₂_same.2 fun _ _ => rfl), h⟩
  rw [List.forall₂_comp_perm_eq_perm_comp_forall₂] at hcomp
  obtain ⟨order, hperm, himages⟩ := hcomp
  refine ⟨order, hperm.symm, ?_⟩
  clear hperm h
  induction himages with
  | nil => rfl
  | cons hxy _ ih => rw [List.map_cons, ← ih, hxy]

theorem eq_of_map_eq {α β : Type} {f : α → β} {l m : List α}
    (hinj : ∀ x ∈ l, ∀ y ∈ m, f x = f y → x = y) (h : l.map f = m.map f) : l = m := by
  induction l generalizing m with
  | nil => exact (List.map_eq_nil_iff.1 h.symm).symm
  | cons x l ih =>
    cases m with
    | nil => simp at h
    | cons y m =>
      obtain ⟨hhead, htail⟩ := List.cons_eq_cons.1 h
      rw [hinj x List.mem_cons_self y List.mem_cons_self hhead, ih ?_ htail]
      exact fun x hx y hy => hinj x (List.mem_cons_of_mem _ hx) y (List.mem_cons_of_mem _ hy)

namespace IsTree

variable {nodes : List Node}

theorem nodup_idsInOrder (h : IsTree nodes) : (idsInOrder nodes).Nodup := by
  have hleaf (leaf : Leaf) (hleaf : leaf ∈ (shapeOfSequence true nodes).leaves) :
      0 < leaf.id ∧ leaf.id < endId nodes := by
    rw [leaves_shapeOfSequence] at hleaf
    exact h.id_of_leaf hleaf
  have hdistinct : ((shapeOfSequence true nodes).leaves.map Leaf.id).Nodup := (h.sits true).distinct
  simp only [idsInOrder, List.nodup_cons, List.nodup_append, List.mem_append, List.mem_map,
    List.mem_singleton, not_or, not_exists, not_and]
  refine ⟨⟨fun leaf hmem heq => ?_, by simp [endId]⟩, hdistinct, by simp, ?_⟩
  · have := hleaf leaf hmem
    omega
  · rintro _ ⟨leaf, hmem, rfl⟩ _ rfl
    have := hleaf leaf hmem
    omega

/-- The ranks ascend through the tree. -/
theorem climbs (h : IsTree nodes) (skips : Bool) :
    Climbs (rankOf nodes) {0} (shapeOfSequence skips nodes) {endId nodes} := by
  have hrising : Rising (rankOf nodes) (idsInOrder nodes) := pairwise_idxOf h.nodup_idsInOrder
  obtain ⟨hstart, hrest⟩ := List.pairwise_cons.1 hrising
  obtain ⟨hleaves, -, hend⟩ := List.pairwise_append.1 hrest
  have htree : Climbs (rankOf nodes) {0} (shapeOfSequence true nodes) {endId nodes} := by
    refine ⟨?_, ?_, ?_⟩
    · rw [Shape.Ascends]
      simpa only [List.pairwise_map] using hleaves
    · rintro _ rfl other (⟨leaf, hleaf, rfl⟩ | rfl)
      · exact hstart _ (List.mem_append_left _ (List.mem_map_of_mem hleaf))
      · exact hstart _ (by simp)
    · rintro _ ⟨leaf, hleaf, rfl⟩ _ rfl
      exact hend _ (List.mem_map_of_mem hleaf) _ (by simp)
  cases skips with
  | true => exact htree
  | false => exact htree.replace (leaves_shapeOfSequence_eq nodes).symm

/-! ## The order of the edges -/

theorem next_statesOf (nodes : List Node) (id : Nat) : (statesOf nodes).next id = [] := by
  refine List.eq_nil_iff_forall_not_mem.2 fun target htarget => ?_
  rw [← mem_edges_iff, edges_statesOf] at htarget
  exact htarget

/-- A graph of the tree whose states have no edge twice, and ascending edges if the tree is
orderly. -/
theorem exists_wiring_in_order (h : IsTree nodes) : ∃ wiring : Wiring,
    compile nodes = .ok wiring.toGraph ∧
      (statesOf nodes).Rewired wiring ((shapeOfSequence true nodes).around {0} {endId nodes}) ∧
      wiring.Simple ∧ (orderlySequence nodes = true → wiring.Ascending (rankOf nodes)) := by
  obtain ⟨straight, wiring, hstraight, hskeleton, hbypass, hwiring, hcompile⟩ := h.exists_wirings
  have hstates := h.routed false
  have hnodes := @Junctions.find_ofNodes_sequence [] nodes (by simpa using h.nodup)
  have hascending : straight.Ascending (rankOf nodes) := by
    intro id
    have hlinks : Rising (rankOf nodes) (targetsOf
        (outerLinks (Junctions.ofNodes (membersOfSequence nodes)) (endId nodes) nodes) id) :=
      Junction.rising_targetsOf_outerLinks h.sound (h.climbs false).ascends
        (h.notMem_ids false (.inl rfl)) (hstates 0 (Shape.subset_span (.inl rfl))).2
        (hstates _ (Shape.subset_span (.inr rfl))).2 (by simpa using hnodes)
    rw [next_of_connectAll?_eq_ok hstraight (by rw [next_statesOf]; exact .nil), next_statesOf,
      List.nil_append, eraseDups_eq_self hlinks.nodup]
    exact hlinks
  have hsits := hskeleton.edges_eq ▸ h.sits false
  refine ⟨wiring, hcompile, hwiring, hascending.simple.bypassSequence? hbypass, fun horderly => ?_⟩
  refine hascending.bypassSequence? h.sound horderly hsits (hskeleton.routed hstates)
    (h.climbs false) (.inr ?_) hbypass
  intro id _ target hedge
  exact absurd hedge (Set.notMem_empty _)

/-! ## The states of the graph -/

theorem mem_statesOf_iff (h : IsTree nodes) {id : Nat} :
    id ∈ statesOf nodes ↔ id ∈ idsInOrder nodes := by
  simp only [idsInOrder, List.mem_cons, List.mem_append, List.mem_map, List.not_mem_nil, or_false]
  constructor
  · intro hid
    rcases eq_leaf_of_mem hid with hend | hstart | ⟨leaf, hleaf, heq⟩
    · exact .inr (.inr hend)
    · exact .inl hstart
    · exact .inr (.inl ⟨leaf, by rw [leaves_shapeOfSequence]; exact hleaf, heq⟩)
  · intro hid
    have hspan : id ∈ (shapeOfSequence true nodes).span {0} {endId nodes} := by
      rcases hid with hstart | hleaf | hend
      · exact .inl (.inr hstart)
      · exact .inl (.inl hleaf)
      · exact .inr hend
    exact (h.routed true id hspan).1

/-! ## The order of the runs -/

/-- A way is known by the ids that it meets. -/
theorem eq_of_map_id_eq (h : IsTree nodes) {way other : List Leaf}
    (hway : way ∈ (shapeOfSequence true nodes).ways)
    (hother : other ∈ (shapeOfSequence true nodes).ways)
    (heq : way.map Leaf.id = other.map Leaf.id) : way = other := by
  refine eq_of_map_eq (fun leaf hleaf last hlast => ?_) heq
  exact List.inj_on_of_nodup_map (h.sits true).distinct (Shape.mem_leaves_of_mem_ways hway hleaf)
    (Shape.mem_leaves_of_mem_ways hother hlast)

/-- Where the edges ascend, both the runs and the ways of an orderly tree come with the earlier ones
first. -/
theorem order_eq_of_ascending {wiring : Wiring} (h : IsTree nodes)
    (horderly : orderlySequence nodes = true) (hascending : wiring.Ascending (rankOf nodes))
    {order : List (List Leaf)}
    (hperm : order.Perm (shapeOfSequence true nodes).ways.eraseDups)
    (horder : wiring.runs (endId nodes) wiring.toGraph.size 0 =
      order.map fun way => way.map Leaf.id ++ [endId nodes]) :
    order = (shapeOfSequence true nodes).ways.eraseDups := by
  have hbehind : ∀ way ∈ (shapeOfSequence true nodes).ways, ∀ id ∈ way.map Leaf.id,
      ∀ other ∈ [endId nodes], rankOf nodes id < rankOf nodes other := by
    intro way hway id hid other hother
    obtain ⟨leaf, hleaf, rfl⟩ := List.mem_map.1 hid
    exact (h.climbs true).lt_after _ ⟨leaf, Shape.mem_leaves_of_mem_ways hway hleaf, rfl⟩ other
      (List.mem_singleton.1 hother)
  have hsorted := sorted_shapeOfSequence horderly (h.climbs true).ascends
  have hways : (shapeOfSequence true nodes).ways.eraseDups = (shapeOfSequence true nodes).ways :=
    eraseDups_eq_self (hsorted.imp fun hearlier heq => (heq ▸ hearlier).asymm (heq ▸ hearlier))
  have hruns : (wiring.runs (endId nodes) wiring.toGraph.size 0).Pairwise
      (Earlier (rankOf nodes)) := pairwise_runs hascending _ _
  rw [horder, List.pairwise_map] at hruns
  -- The runs and the ways are the same up to their order, and only one order has the earlier first.
  rw [hways] at hperm ⊢
  exact List.Perm.eq_of_pairwise (fun _ _ _ _ h hback => absurd hback h.asymm) hruns
    (List.Pairwise.imp_of_mem (fun hway _ hearlier => hearlier.append (hbehind _ hway)) hsorted)
    hperm

section Wired

variable {wiring : Wiring}
  (hwiring : (statesOf nodes).Rewired wiring
    ((shapeOfSequence true nodes).around {0} {endId nodes}))

include hwiring

theorem keys_perm (h : IsTree nodes) : wiring.keys.Perm (idsInOrder nodes) := by
  refine (List.perm_ext_iff_of_nodup Std.TreeMap.nodup_keys h.nodup_idsInOrder).2 fun id => ?_
  rw [Std.TreeMap.mem_keys, hwiring.mem_iff, h.mem_statesOf_iff]

theorem size_toGraph (h : IsTree nodes) :
    wiring.toGraph.size = (shapeOfSequence true nodes).leaves.length + 2 := by
  rw [size_toGraph_eq_length, (h.keys_perm hwiring).length_eq, length_idsInOrder]

theorem rankOf_lt_size (h : IsTree nodes) {id : Nat} (hid : id ∈ wiring) :
    rankOf nodes id < wiring.toGraph.size := by
  have hmem := h.mem_statesOf_iff.1 (hwiring.mem_iff.1 hid)
  rw [size_toGraph hwiring h, ← length_idsInOrder]
  exact List.idxOf_lt_length_of_mem hmem

theorem rankOf_lt_of_edge (h : IsTree nodes) :
    ∀ edge ∈ wiring.edges, rankOf nodes edge.1 < rankOf nodes edge.2 := by
  rw [hwiring.edges_eq]
  exact fun _ => (h.climbs true).lt_of_mem_around

/-- The runs through the graph are those along the ways through the tree. -/
theorem mem_runs_start_iff (h : IsTree nodes) {ids : List Nat} :
    ids ∈ wiring.runs (endId nodes) wiring.toGraph.size 0 ↔
      ∃ way ∈ (shapeOfSequence true nodes).ways, ids = way.map Leaf.id ++ [endId nodes] := by
  have hend : endId nodes ∈ wiring := mem_iff_exists_kind?.2 ⟨_, kind?_end hwiring⟩
  have hlt := rankOf_lt_size hwiring h hend
  rw [mem_runs_iff (rankOf_lt_of_edge hwiring h) (stops hwiring h) (by omega),
    run_start_iff hwiring h]

/-- The graph is listed without an error, unless it has too many paths. -/
theorem walks_toGraph (h : IsTree nodes) : walks wiring.toGraph =
    if (wiring.runs (endId nodes) wiring.toGraph.size 0).length ≤ maxPaths then
      .ok ((wiring.runs (endId nodes) wiring.toGraph.size 0).map fun ids =>
        ids.filterMap wiring.kind?)
    else .error .tooManyPaths := by
  have hzero := zero_mem hwiring
  have hstart := map_kind_getElem?_toGraph hzero
  rw [place_zero hzero, kind?_start hwiring] at hstart
  have hroomy : Roomy wiring.toGraph wiring.toGraph.size 0 := by
    have hall : Roomy wiring.toGraph wiring.toGraph.size (wiring.place 0) :=
      roomy_toGraph (rankOf_lt_of_edge hwiring h) (closed hwiring h)
        (fun id hid => Nat.le_of_lt (rankOf_lt_size hwiring h hid)) hzero (Nat.le_add_right _ _)
    rwa [place_zero hzero] at hall
  have hwalks := walksFrom_toGraph (closed hwiring h) (isAccept_kind?_iff hwiring h)
    wiring.toGraph.size hzero
  rw [place_zero hzero] at hwalks
  rw [walks_eq_ite hstart hroomy, hwalks, List.length_map, List.map_map]
  congr 2
  refine List.map_congr_left fun ids _ => ?_
  simp [kind?_start hwiring]

/-- No run goes twice, so there is one for each different way. -/
theorem exists_order_of_simple (h : IsTree nodes) (hsimple : wiring.Simple) :
    ∃ order : List (List Leaf), order.Perm (shapeOfSequence true nodes).ways.eraseDups ∧
      wiring.runs (endId nodes) wiring.toGraph.size 0 =
        order.map fun way => way.map Leaf.id ++ [endId nodes] := by
  refine exists_perm_of_perm_map ((List.perm_ext_iff_of_nodup ?_ (nodup_runs hsimple _ _)).2 ?_)
  · refine List.Nodup.map_on ?_ (nodup_eraseDups _)
    intro way hway other hother heq
    exact h.eq_of_map_id_eq (List.mem_eraseDups.1 hway) (List.mem_eraseDups.1 hother)
      (List.append_cancel_right heq)
  · intro ids
    rw [mem_runs_start_iff hwiring h]
    simp [eq_comm]

/-- The kinds that a run along a way meets are those of the path of the way. -/
theorem filterMap_kind?_way (h : IsTree nodes) {way : List Leaf}
    (hway : way ∈ (shapeOfSequence true nodes).ways) :
    (way.map Leaf.id ++ [endId nodes]).filterMap wiring.kind? = pathOf way := by
  obtain ⟨-, hrest⟩ := List.cons_eq_cons.1 (map_kind?_ids hwiring h hway)
  simpa [List.filterMap_map, pathOf] using congrArg (List.filterMap id) hrest

end Wired

/-- The graph of a tree lists the paths of its different ways, each once, unless they are too many.
If the tree is orderly, they come in the declared order. -/
theorem exists_listing (h : IsTree nodes) : ∃ graph order, compile nodes = .ok graph ∧
    (graph.back?.any fun state => state.kind.isAccept) = true ∧
    order.Perm (waysOfSequence nodes).eraseDups ∧
    (orderlySequence nodes = true → order = (waysOfSequence nodes).eraseDups) ∧
    walks graph = if order.length ≤ maxPaths then .ok (order.map pathOf)
      else .error .tooManyPaths := by
  obtain ⟨wiring, hcompile, hwiring, hsimple, hascending⟩ := h.exists_wiring_in_order
  obtain ⟨order, hperm, horder⟩ := h.exists_order_of_simple hwiring hsimple
  rw [waysOfSequence_eq]
  refine ⟨wiring.toGraph, order, hcompile, isAccept_back? hwiring h, hperm, ?_, ?_⟩
  · exact fun horderly =>
      h.order_eq_of_ascending horderly (hascending horderly) hperm horder
  · rw [walks_toGraph hwiring h, horder, List.length_map, List.map_map]
    congr 2
    refine List.map_congr_left fun way hway => ?_
    exact h.filterMap_kind?_way hwiring (List.mem_eraseDups.1 (hperm.mem_iff.1 hway))

end IsTree

end RoutePattern
