import Mathlib.Data.Set.Prod
import RoutePattern.Proofs.Node.Shape

/-!
# Edges along a shape

A shape stands between the states that lead to it and the states that follow it. `enter` and
`leave` say which states a walk can be at when it steps into the shape and when it steps out of
it, and `around` which edges it takes then; where the shape can be skipped, these are also states
before and behind the shape.

`Sits` says that a graph holds the edges around a shape, and that its other edges do not touch
the leaves of the shape. It passes to the parts of the shape (`Sits.joinFirst` and so on), and so
the runs through the shape are its ways (`Sits.mem_runsInto_enter_iff`).
-/

namespace RoutePattern

namespace Shape

/-- The ids of the leaves. -/
def ids (shape : Shape) : Set Nat := {id | ∃ leaf ∈ shape.leaves, leaf.id = id}

/-- Where a step into the shape leads, if a step over it leads to `after`. -/
def enter : Shape → (after : Set Nat) → Set Nat
  | nothing, _ => ∅
  | skip, after => after
  | one leaf, _ => {leaf.id}
  | join first second, after => first.enter (second.enter after)
  | choice first second, after => first.enter after ∪ second.enter after

/-- Where a walk may be behind the shape, if it was at one of `before` in front of it. -/
def leave : Shape → (before : Set Nat) → Set Nat
  | nothing, _ => ∅
  | skip, before => before
  | one leaf, _ => {leaf.id}
  | join first second, before => second.leave (first.leave before)
  | choice first second, before => first.leave before ∪ second.leave before

/-- The edges that lead to leaves of the shape. -/
def inflow : Shape → (before : Set Nat) → Set (Nat × Nat)
  | nothing, _ => ∅
  | skip, _ => ∅
  | one leaf, before => before ×ˢ {leaf.id}
  | join first second, before => first.inflow before ∪ second.inflow (first.leave before)
  | choice first second, before => first.inflow before ∪ second.inflow before

/-- The edges from `before` through the shape to `after`. -/
def around (shape : Shape) (before after : Set Nat) : Set (Nat × Nat) :=
  shape.inflow before ∪ shape.leave before ×ˢ after

variable {shape first second : Shape} {leaf : Leaf} {before after : Set Nat}

@[simp] theorem ids_one : (one leaf).ids = {leaf.id} := by
  ext
  simp [ids, leaves, eq_comm]

@[simp] theorem ids_join : (join first second).ids = first.ids ∪ second.ids := by
  ext
  simp [ids, leaves, or_and_right, exists_or]

@[simp] theorem ids_choice : (choice first second).ids = first.ids ∪ second.ids := by
  ext
  simp [ids, leaves, or_and_right, exists_or]

theorem ids_congr {new : Shape} (hleaves : new.leaves = shape.leaves) : new.ids = shape.ids := by
  rw [ids, hleaves, ids]

theorem around_nothing : nothing.around before after = ∅ := by simp [around, inflow, leave]

theorem around_skip : skip.around before after = before ×ˢ after := by
  simp [around, inflow, leave]

theorem around_one :
    (one leaf).around before after = before ×ˢ {leaf.id} ∪ {leaf.id} ×ˢ after := rfl

/-- The edges around a choice are those around either shape. -/
theorem around_choice : (choice first second).around before after =
    first.around before after ∪ second.around before after := by
  rw [around, inflow, leave, Set.union_prod, Set.union_union_union_comm, around, around]

theorem around_orSkip_true : (shape.orSkip true).around before after =
    shape.around before after ∪ before ×ˢ after := by
  rw [orSkip, if_pos rfl, around_choice, around_skip]

/-- The second part stands behind the first one. -/
theorem around_join_second : (join first second).around before after =
    first.inflow before ∪ second.around (first.leave before) after := by
  rw [around, inflow, leave, Set.union_assoc, around]

/-- The states before a shape have edges to where it is entered. -/
theorem around_eq_enter : shape.around before after =
    before ×ˢ shape.enter after ∪ shape.around ∅ after := by
  induction shape generalizing before after with
  | nothing => simp [around_nothing, enter]
  | skip => simp [around_skip, enter]
  | one leaf => simp [around_one, enter]
  | join first second ihf ihs =>
    have hfirst (before : Set Nat) : (join first second).around before after =
        first.around before (second.enter after) ∪ second.around ∅ after := by
      rw [around_join_second, ihs, ← Set.union_assoc]
      rfl
    rw [hfirst, hfirst, ihf, enter, Set.union_assoc]
  | choice first second ihf ihs =>
    rw [around_choice, around_choice, ihf, ihs, enter, Set.prod_union,
      Set.union_union_union_comm]

/-- The first part stands before the second one. -/
theorem around_join_first : (join first second).around before after =
    first.around before (second.enter after) ∪ second.around ∅ after := by
  rw [around_join_second, around_eq_enter, ← Set.union_assoc]
  rfl

theorem enter_subset : shape.enter after ⊆ shape.ids ∪ after := by
  induction shape generalizing after with
  | nothing => simp [enter]
  | skip => simp [enter]
  | one leaf => simp [enter]
  | join first second ihf ihs =>
    rw [enter, ids_join, Set.union_assoc]
    exact ihf.trans (Set.union_subset_union_right _ ihs)
  | choice first second ihf ihs =>
    rw [enter, ids_choice, Set.union_union_distrib_right]
    exact Set.union_subset_union ihf ihs

/-- A shape is left at one of its leaves or where it was met. -/
theorem leave_subset : shape.leave before ⊆ shape.ids ∪ before := by
  induction shape generalizing before with
  | nothing => simp [leave]
  | skip => simp [leave]
  | one leaf => simp [leave]
  | join first second ihf ihs =>
    rw [leave, ids_join, Set.union_comm first.ids, Set.union_assoc]
    exact ihs.trans (Set.union_subset_union_right _ ihf)
  | choice first second ihf ihs =>
    rw [leave, ids_choice, Set.union_union_distrib_right]
    exact Set.union_subset_union ihf ihs

/-- An edge into a shape comes from its leaves or from before it and leads to its leaves. -/
theorem inflow_subset : shape.inflow before ⊆ (shape.ids ∪ before) ×ˢ shape.ids := by
  induction shape generalizing before with
  | nothing => simp [inflow]
  | skip => simp [inflow]
  | one leaf =>
    rw [inflow, ids_one]
    exact Set.prod_mono_left Set.subset_union_right
  | join first second ihf ihs =>
    rw [inflow, ids_join]
    refine Set.union_subset (ihf.trans ?_) (ihs.trans ?_)
    · exact Set.prod_mono (by grind) (by grind)
    · have hleave : first.leave before ⊆ first.ids ∪ before := leave_subset
      exact Set.prod_mono (by grind) (by grind)
  | choice first second ihf ihs =>
    rw [inflow, ids_choice]
    exact Set.union_subset (ihf.trans (Set.prod_mono (by grind) (by grind)))
      (ihs.trans (Set.prod_mono (by grind) (by grind)))

/-- The states that the edges around the shape can touch. -/
def span (shape : Shape) (before after : Set Nat) : Set Nat := shape.ids ∪ before ∪ after

theorem span_congr {new : Shape} (hleaves : new.leaves = shape.leaves) :
    new.span before after = shape.span before after := by
  rw [span, ids_congr hleaves, span]

theorem subset_span : before ∪ after ⊆ shape.span before after := by
  rw [span, Set.union_assoc]
  exact Set.subset_union_right

theorem span_choiceFirst_subset :
    first.span before after ⊆ (choice first second).span before after := by
  rw [span, span, ids_choice]
  gcongr
  exact Set.subset_union_left

theorem span_choiceSecond_subset :
    second.span before after ⊆ (choice first second).span before after := by
  rw [span, span, ids_choice]
  gcongr
  exact Set.subset_union_right

theorem span_joinFirst_subset :
    first.span before (second.enter after) ⊆ (join first second).span before after := by
  have henter : second.enter after ⊆ second.ids ∪ after := enter_subset
  simp only [span, ids_join]
  grind

theorem span_joinSecond_subset :
    second.span (first.leave before) after ⊆ (join first second).span before after := by
  have hleave : first.leave before ⊆ first.ids ∪ before := leave_subset
  simp only [span, ids_join]
  grind

/-- The edges around a shape lead from its leaves or from before it to its leaves or behind it. -/
theorem around_subset :
    shape.around before after ⊆ (shape.ids ∪ before) ×ˢ (shape.ids ∪ after) :=
  Set.union_subset (inflow_subset.trans (Set.prod_mono_right Set.subset_union_left))
    (Set.prod_mono leave_subset Set.subset_union_right)

end Shape

/-! ## A shape in a graph -/

/-- The ids of the leaves of a shape are different. -/
def Shape.Distinct (shape : Shape) : Prop := (shape.leaves.map Leaf.id).Nodup

/-- Parts with different leaves have no id in common. -/
theorem Shape.distinct_append {shape first second : Shape} (h : shape.Distinct)
    (hleaves : shape.leaves = first.leaves ++ second.leaves) :
    first.Distinct ∧ second.Distinct ∧ second.ids ⊆ first.idsᶜ := by
  rw [Distinct, hleaves, List.map_append, List.nodup_append] at h
  obtain ⟨hfirst, hsecond, hne⟩ := h
  refine ⟨hfirst, hsecond, ?_⟩
  rintro id ⟨leaf, hleaf, rfl⟩ ⟨other, hother, heq⟩
  exact hne _ (List.mem_map_of_mem hother) _ (List.mem_map_of_mem hleaf) heq

/-- The edges of a graph are the edges around a shape and others, which do not touch the leaves of
the shape. -/
structure Sits (edges others : Set (Nat × Nat)) (before : Set Nat) (shape : Shape)
    (after : Set Nat) : Prop where
  edges_eq : edges = others ∪ shape.around before after
  others_apart : others ⊆ shape.idsᶜ ×ˢ shape.idsᶜ
  before_apart : before ⊆ shape.idsᶜ
  after_apart : after ⊆ shape.idsᶜ
  distinct : shape.Distinct

namespace Sits

open Shape

variable {edges others : Set (Nat × Nat)} {before after : Set Nat} {shape first second : Shape}

/-- The first part sits between what is before the sequence and where the second part is entered. -/
theorem joinFirst (h : Sits edges others before (.join first second) after) :
    Sits edges (others ∪ second.around ∅ after) before first (second.enter after) := by
  obtain ⟨hdistinct, -, hne⟩ := distinct_append h.distinct rfl
  have hpart : (join first second).idsᶜ ⊆ first.idsᶜ := by simp
  have hafter : second.ids ∪ after ⊆ first.idsᶜ := Set.union_subset hne (h.after_apart.trans hpart)
  refine ⟨?_, Set.union_subset ?_ ?_, h.before_apart.trans hpart, ?_, hdistinct⟩
  · rw [h.edges_eq, around_join_first, Set.union_assoc, Set.union_comm (second.around _ _)]
  · exact h.others_apart.trans (Set.prod_mono hpart hpart)
  · exact around_subset.trans (Set.prod_mono (by simpa using hne) hafter)
  · -- What is behind the first part is the second part or behind both.
    exact enter_subset.trans hafter

/-- The second part sits between where the first part is left and what is behind the sequence. -/
theorem joinSecond (h : Sits edges others before (.join first second) after) :
    Sits edges (others ∪ first.inflow before) (first.leave before) second after := by
  obtain ⟨-, hdistinct, hne⟩ := distinct_append h.distinct rfl
  have hpart : (join first second).idsᶜ ⊆ second.idsᶜ := by simp
  have hbefore : first.ids ∪ before ⊆ second.idsᶜ :=
    Set.union_subset (Set.subset_compl_comm.1 hne) (h.before_apart.trans hpart)
  refine ⟨?_, Set.union_subset ?_ ?_, ?_, h.after_apart.trans hpart, hdistinct⟩
  · rw [h.edges_eq, around_join_second, Set.union_assoc]
  · exact h.others_apart.trans (Set.prod_mono hpart hpart)
  · exact inflow_subset.trans (Set.prod_mono hbefore (Set.subset_union_left.trans hbefore))
  · exact leave_subset.trans hbefore

/-- A shape of a choice sits where the choice does, with the other one among the other edges. -/
theorem choiceFirst (h : Sits edges others before (.choice first second) after) :
    Sits edges (others ∪ second.around before after) before first after := by
  obtain ⟨hdistinct, -, hne⟩ := distinct_append h.distinct rfl
  have hpart : (choice first second).idsᶜ ⊆ first.idsᶜ := by simp
  have hbefore := h.before_apart.trans hpart
  have hafter := h.after_apart.trans hpart
  refine ⟨?_, Set.union_subset ?_ ?_, hbefore, hafter, hdistinct⟩
  · rw [h.edges_eq, around_choice, Set.union_assoc, Set.union_comm (second.around _ _)]
  · exact h.others_apart.trans (Set.prod_mono hpart hpart)
  · exact around_subset.trans
      (Set.prod_mono (Set.union_subset hne hbefore) (Set.union_subset hne hafter))

/-- The order of the two shapes of a choice is of no account for the edges. -/
theorem choice_comm (h : Sits edges others before (.choice first second) after) :
    Sits edges others before (.choice second first) after := by
  have hids : (choice second first).ids = (choice first second).ids := by
    rw [ids_choice, ids_choice, Set.union_comm]
  refine ⟨?_, hids ▸ h.others_apart, hids ▸ h.before_apart, hids ▸ h.after_apart, ?_⟩
  · rw [h.edges_eq, around_choice, around_choice, Set.union_comm (first.around _ _)]
  · have := h.distinct
    rw [Distinct, leaves, List.map_append] at this ⊢
    exact List.perm_append_comm.nodup this

theorem choiceSecond (h : Sits edges others before (.choice first second) after) :
    Sits edges (others ∪ first.around before after) before second after :=
  h.choice_comm.choiceFirst

/-- A shape may take the place of another one with its leaves. -/
theorem replace {new : Shape} (h : Sits edges others before shape after)
    (hleaves : new.leaves = shape.leaves) :
    Sits (others ∪ new.around before after) others before new after := by
  have hids := ids_congr hleaves
  refine ⟨rfl, hids ▸ h.others_apart, hids ▸ h.before_apart, hids ▸ h.after_apart, ?_⟩
  rw [Distinct, hleaves]
  exact h.distinct

/-- When the first part of a join gives way to another one, the second part stays as it is. -/
theorem replaceJoinFirst {new : Shape} (h : Sits edges others before (.join first second) after)
    (hleaves : new.leaves = first.leaves) {more : Set (Nat × Nat)}
    (hmore : more =
      others ∪ second.around ∅ after ∪ new.around before (second.enter after)) :
    Sits more others before (.join new second) after := by
  rw [hmore, Set.union_assoc, Set.union_comm (second.around _ _), ← around_join_first]
  exact h.replace (by rw [leaves, hleaves, leaves])

/-- When the first shape of a choice gives way to another one, the second shape stays as it is. -/
theorem replaceChoiceFirst {new : Shape}
    (h : Sits edges others before (.choice first second) after)
    (hleaves : new.leaves = first.leaves) {more : Set (Nat × Nat)}
    (hmore : more = others ∪ second.around before after ∪ new.around before after) :
    Sits more others before (.choice new second) after := by
  rw [hmore, Set.union_assoc, Set.union_comm (second.around _ _), ← around_choice]
  exact h.replace (by rw [leaves, hleaves, leaves])

/-- Edges over the shape do not touch its leaves. -/
theorem stepOver (h : Sits edges others before shape after) :
    Sits (edges ∪ before ×ˢ after) (others ∪ before ×ˢ after) before shape after := by
  refine ⟨?_, Set.union_subset h.others_apart ?_, h.before_apart, h.after_apart, h.distinct⟩
  · rw [h.edges_eq, Set.union_right_comm]
  · exact Set.prod_mono h.before_apart h.after_apart

end Sits

/-! ## Runs through a shape -/

/-- A run along the edges from a state to `last`, as the states that it comes to. -/
inductive Run (edges : Set (Nat × Nat)) (last : Nat) : Nat → List Nat → Prop
  | stop : Run edges last last []
  | step {id target : Nat} {ids : List Nat} (hedge : (id, target) ∈ edges)
      (hrun : Run edges last target ids) : Run edges last id (target :: ids)

/-- The runs to `last` from one of the states `firsts`, with the state that they begin at. -/
def runsFrom (edges : Set (Nat × Nat)) (last : Nat) (firsts : Set Nat) : Set (List Nat) :=
  {ids | ∃ id rest, ids = id :: rest ∧ id ∈ firsts ∧ Run edges last id rest}

/-- A run from a state other than the last one goes on along an edge. -/
theorem run_iff_mem_runsFrom {edges : Set (Nat × Nat)} {last id : Nat} {ids : List Nat}
    (hne : id ≠ last) :
    Run edges last id ids ↔ ids ∈ runsFrom edges last {target | (id, target) ∈ edges} := by
  constructor
  · intro h
    cases h with
    | stop => exact absurd rfl hne
    | step hedge hrun => exact ⟨_, _, rfl, hedge, hrun⟩
  · rintro ⟨target, rest, rfl, hedge, hrun⟩
    exact .step hedge hrun

theorem mem_runsFrom_singleton {edges : Set (Nat × Nat)} {last id : Nat} {ids : List Nat} :
    ids ∈ runsFrom edges last {id} ↔ ∃ rest, ids = id :: rest ∧ Run edges last id rest := by
  simp [runsFrom]

/-- The runs from the states of two sets are those from either set. -/
theorem runsFrom_union {edges : Set (Nat × Nat)} {last : Nat} {first second : Set Nat} :
    runsFrom edges last (first ∪ second) =
      runsFrom edges last first ∪ runsFrom edges last second := by
  ext ids
  simp only [runsFrom, Set.mem_union, Set.mem_ofPred_eq, or_and_right, and_or_left, exists_or]

/-- The edges from the only leaf of a shape lead behind it. -/
theorem Sits.targets_of_one {edges others : Set (Nat × Nat)} {before after : Set Nat}
    {leaf : Leaf} (h : Sits edges others before (.one leaf) after) :
    {target | (leaf.id, target) ∈ edges} = after := by
  have hbefore : leaf.id ∉ before := by
    intro hmem
    exact h.before_apart hmem (by simp)
  have hothers (target : Nat) : (leaf.id, target) ∉ others := by
    intro hmem
    exact (h.others_apart hmem).1 (by simp)
  ext target
  simp [h.edges_eq, Shape.around_one, hbefore, hothers]

/-- The edges to the only leaf of a shape come from before it. -/
theorem Sits.sources_of_one {edges others : Set (Nat × Nat)} {before after : Set Nat}
    {leaf : Leaf} (h : Sits edges others before (.one leaf) after) :
    {source | (source, leaf.id) ∈ edges} = before := by
  have hafter : leaf.id ∉ after := by
    intro hmem
    exact h.after_apart hmem (by simp)
  have hothers (source : Nat) : (source, leaf.id) ∉ others := by
    intro hmem
    exact (h.others_apart hmem).2 (by simp)
  ext source
  simp [h.edges_eq, Shape.around_one, hafter, hothers]

/-- The runs that begin with a step into a shape follow one of its ways and go on behind it. -/
theorem Sits.mem_runsFrom_enter_iff {edges others : Set (Nat × Nat)} {before after : Set Nat}
    {shape : Shape} {last : Nat} (h : Sits edges others before shape after)
    (hlast : last ∉ shape.ids) {ids : List Nat} :
    ids ∈ runsFrom edges last (shape.enter after) ↔
      ∃ way ∈ shape.ways, ∃ rest ∈ runsFrom edges last after, ids = way.map Leaf.id ++ rest := by
  induction shape generalizing others before after ids with
  | nothing => simp [Shape.enter, Shape.ways, runsFrom]
  | skip => simp [Shape.enter, Shape.ways]
  | one leaf =>
    have hne : leaf.id ≠ last := by simpa [eq_comm] using hlast
    rw [Shape.enter, mem_runsFrom_singleton]
    simp only [run_iff_mem_runsFrom hne, h.targets_of_one]
    simp [Shape.ways, and_comm]
  | join first second ihf ihs =>
    rw [Shape.ids_join, Set.mem_union, not_or] at hlast
    rw [Shape.enter, ihf h.joinFirst hlast.1]
    simp only [ihs h.joinSecond hlast.2, Shape.ways, List.mem_flatMap, List.mem_map]
    constructor
    · rintro ⟨lead, hlead, _, ⟨way, hway, rest, hrest, rfl⟩, rfl⟩
      exact ⟨_, ⟨lead, hlead, way, hway, rfl⟩, rest, hrest, by simp⟩
    · rintro ⟨_, ⟨lead, hlead, way, hway, rfl⟩, rest, hrest, rfl⟩
      exact ⟨lead, hlead, _, ⟨way, hway, rest, hrest, rfl⟩, by simp⟩
  | choice first second ihf ihs =>
    rw [Shape.ids_choice, Set.mem_union, not_or] at hlast
    rw [Shape.enter, runsFrom_union, Set.mem_union, ihf h.choiceFirst hlast.1,
      ihs h.choiceSecond hlast.2, Shape.ways]
    simp only [List.mem_append, or_and_right, exists_or]

/-- Where nothing but a shape stands between the first and the last state, the runs from one to
the other are the ways of the shape. -/
theorem Sits.run_iff {edges : Set (Nat × Nat)} {first last : Nat} {shape : Shape}
    (h : Sits edges ∅ {first} shape {last}) (hne : first ≠ last) {ids : List Nat} :
    Run edges last first ids ↔ ∃ way ∈ shape.ways, ids = way.map Leaf.id ++ [last] := by
  have hedges : edges = shape.around {first} {last} := by simpa using h.edges_eq
  have hfirst : first ∉ shape.ids := h.before_apart rfl
  have hlast : last ∉ shape.ids := h.after_apart rfl
  have htargets : {target | (first, target) ∈ edges} = shape.enter {last} := by
    ext target
    have hinner : (first, target) ∉ shape.around ∅ {last} := by
      intro hmem
      exact hfirst (by simpa using (Shape.around_subset hmem).1)
    rw [hedges, Shape.around_eq_enter]
    simp [hinner]
  have hstop (rest : List Nat) : Run edges last last rest ↔ rest = [] := by
    constructor
    · intro hrun
      cases hrun with
      | stop => rfl
      | step hedge _ =>
        -- An edge around the shape leaves one of its leaves or the first state, and the last state
        -- is neither.
        have := (Shape.around_subset (hedges ▸ hedge)).1
        simp [hlast, hne.symm] at this
    · rintro rfl
      exact .stop
  rw [run_iff_mem_runsFrom hne, htargets, h.mem_runsFrom_enter_iff hlast]
  simp [mem_runsFrom_singleton, hstop]

end RoutePattern
