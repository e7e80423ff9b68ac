import RoutePattern.Proofs.Graph.Advance
import RoutePattern.Proofs.Graph.Bypass
import RoutePattern.Proofs.Graph.Junction

/-!
# The order of the edges

The edges of a state are in the order in which they were first added (`next_of_connectAll?_eq_ok`),
so a state never has an edge twice. Where the leaves of a tree have ranks that ascend in reading
order (`Climbs`), the edges of each state go to ascending ranks before there are bypasses
(`Junction.rising_targetsOf_outerLinks`). In an orderly tree the bypasses keep it so
(`Wiring.Ascending.bypassSequence?`): a state that a bypass starts from has, beside its edges into
the bypassed node, only edges to what stands before that node.
-/

namespace RoutePattern

/-- The targets of the links that leave a state, in order. -/
def targetsOf (links : List (Nat × Nat)) (id : Nat) : List Nat :=
  links.filterMap fun link => if link.1 = id then some link.2 else none

@[simp] theorem targetsOf_append (links others : List (Nat × Nat)) (id : Nat) :
    targetsOf (links ++ others) id = targetsOf links id ++ targetsOf others id :=
  List.filterMap_append

/-- The targets are those that a link leads to from the state. -/
theorem mem_targetsOf_iff {links : List (Nat × Nat)} {id target : Nat} :
    target ∈ targetsOf links id ↔ (id, target) ∈ links := by
  simp [targetsOf, and_comm]

theorem targetsOf_eq_nil {links : List (Nat × Nat)} {id : Nat} (h : ∀ link ∈ links, link.1 ≠ id) :
    targetsOf links id = [] :=
  List.filterMap_eq_nil_iff.2 fun link hlink => if_neg (h link hlink)

/-- The ranks of the ids ascend. -/
def Rising (rank : Nat → Nat) (ids : List Nat) : Prop :=
  ids.Pairwise fun id other => rank id < rank other

theorem Rising.nodup {rank : Nat → Nat} {ids : List Nat} (h : Rising rank ids) : ids.Nodup :=
  h.imp fun hlt heq => by rw [heq] at hlt; omega

namespace Wiring

variable {wiring wired : Wiring}

/-- An edge leaves the edges of other states as they are. -/
theorem next_of_connect?_of_ne {source target id : Nat}
    (h : wiring.connect? source target = .ok wired) (hne : source ≠ id) :
    wired.next id = wiring.next id := by
  unfold connect? at h
  split at h
  · cases h
  · split at h
    · cases h
    · split at h
      · obtain rfl := Except.ok.inj h
        rfl
      · obtain rfl := Except.ok.inj h
        simp [next, Std.TreeMap.getElem?_modify, hne]

/-- A new edge of a state comes behind those that it has, and one that it has is not added. -/
theorem next_of_connect?_self {source target : Nat}
    (h : wiring.connect? source target = .ok wired) :
    wired.next source = if target ∈ wiring.next source then wiring.next source else
      wiring.next source ++ [target] := by
  unfold connect? at h
  split at h
  · cases h
  · split at h
    · cases h
    · next state hstate =>
      split at h
      · next hmem =>
        obtain rfl := Except.ok.inj h
        rw [if_pos]
        rw [next_of_getElem? hstate]
        exact Array.mem_toList_iff.2 (Array.contains_iff_mem.1 hmem)
      · next hmem =>
        obtain rfl := Except.ok.inj h
        rw [if_neg]
        · simp [next, hstate]
        · rw [next_of_getElem? hstate, Array.mem_toList_iff, ← Array.contains_iff_mem]
          exact hmem

/-- The edges of a state are in the order in which they were first added. -/
theorem next_of_connectAll?_eq_ok {links : List (Nat × Nat)}
    (h : wiring.connectAll? links = .ok wired) {id : Nat} (hnodup : (wiring.next id).Nodup) :
    wired.next id = (wiring.next id ++ targetsOf links id).eraseDups := by
  induction links generalizing wiring with
  | nil =>
    obtain rfl := Except.ok.inj h
    rw [targetsOf, List.filterMap_nil, List.append_nil, eraseDups_eq_self hnodup]
  | cons link links ih =>
    obtain ⟨source, target⟩ := link
    obtain ⟨between, hbetween, hrest⟩ := bind_eq_ok_iff.1 h
    by_cases hsource : source = id
    · subst hsource
      have hnext := next_of_connect?_self hbetween
      have htargets : targetsOf ((source, target) :: links) source =
          target :: targetsOf links source := by simp [targetsOf]
      rw [htargets]
      split at hnext
      · next hmem =>
        -- The edge is there already, so it is not listed again.
        rw [ih hrest (hnext ▸ hnodup), hnext, eraseDups_concat_append hmem]
      · next hmem =>
        have hnew : (wiring.next source ++ [target]).Nodup := by
          have hall := nodup_eraseDups (wiring.next source ++ [target])
          rwa [eraseDups_concat, if_neg hmem, eraseDups_eq_self hnodup] at hall
        rw [ih hrest (hnext ▸ hnew), hnext, List.append_assoc, List.singleton_append]
    · have hnext := next_of_connect?_of_ne hbetween hsource
      rw [ih hrest (hnext ▸ hnodup), hnext]
      simp [targetsOf, hsource]

/-- No state has an edge twice. -/
def Simple (wiring : Wiring) : Prop := ∀ id, (wiring.next id).Nodup

/-- The edges of every state go to ascending ranks. -/
def Ascending (rank : Nat → Nat) (wiring : Wiring) : Prop :=
  ∀ id, Rising rank (wiring.next id)

theorem Ascending.simple {rank : Nat → Nat} (h : wiring.Ascending rank) : wiring.Simple :=
  fun id => (h id).nodup

/-- Adding edges gives no state an edge twice, whatever the links are. -/
theorem Simple.connectAll? {links : List (Nat × Nat)} (h : wiring.Simple)
    (hwired : wiring.connectAll? links = .ok wired) : wired.Simple := by
  intro id
  rw [next_of_connectAll?_eq_ok hwired (h id)]
  exact nodup_eraseDups _

variable {junctions : Junctions}

mutual

/-- Neither do bypasses. -/
theorem Simple.bypass? {wiring wired : Wiring} : {node : Node} → wiring.Simple →
    bypass? junctions wiring node = .ok wired → wired.Simple
  | .literal .., h, hwired => Except.ok.inj hwired ▸ h
  | .parameter _ _ false, h, hwired => Except.ok.inj hwired ▸ h
  | .parameter _ _ true, h, hwired => h.connectAll? hwired
  | .group _ _ false, h, hwired => h.bypassAlternatives? hwired
  | .group _ _ true, h, hwired => by
    obtain ⟨between, hbetween, hrest⟩ := bind_eq_ok_iff.1 hwired
    exact (h.connectAll? hbetween).bypassAlternatives? hrest
  | .separator _, h, hwired => Except.ok.inj hwired ▸ h

theorem Simple.bypassAlternatives? {wiring wired : Wiring} :
    {alternatives : List (List Node)} → wiring.Simple →
    bypassAlternatives? junctions wiring alternatives = .ok wired → wired.Simple
  | [], h, hwired => Except.ok.inj hwired ▸ h
  | _ :: _, h, hwired => by
    obtain ⟨between, hbetween, hrest⟩ := bind_eq_ok_iff.1 hwired
    exact (h.bypassSequence? hbetween).bypassAlternatives? hrest

theorem Simple.bypassSequence? {wiring wired : Wiring} : {nodes : List Node} → wiring.Simple →
    bypassSequence? junctions wiring nodes = .ok wired → wired.Simple
  | [], h, hwired => Except.ok.inj hwired ▸ h
  | _ :: _, h, hwired => by
    obtain ⟨between, hbetween, hrest⟩ := bind_eq_ok_iff.1 hwired
    exact (h.bypass? hbetween).bypassSequence? hrest

end

end Wiring

/-! ## Ranks along a shape -/

/-- The ranks ascend from the states before a shape over its leaves to those behind it. -/
structure Climbs (rank : Nat → Nat) (before : Set Nat) (shape : Shape) (after : Set Nat) :
    Prop where
  ascends : shape.Ascends rank
  before_lt : ∀ id ∈ before, ∀ other ∈ shape.ids ∪ after, rank id < rank other
  lt_after : ∀ id ∈ shape.ids, ∀ other ∈ after, rank id < rank other

namespace Climbs

variable {rank : Nat → Nat} {before after : Set Nat} {shape first second : Shape}

/-- The ranks of the first part of a sequence are lower than those of the second. -/
theorem lt_of_parts (h : (Shape.join first second).Ascends rank) {id other : Nat}
    (hid : id ∈ first.ids) (hother : other ∈ second.ids) : rank id < rank other :=
  h.flows.2.2 id hid other hother

theorem advances (h : Climbs rank before shape after) : Advances rank before shape after :=
  ⟨h.ascends.flows, h.before_lt, h.lt_after⟩

theorem of_advances (hascends : shape.Ascends rank) (h : Advances rank before shape after) :
    Climbs rank before shape after :=
  ⟨hascends, h.before_lt, h.lt_after⟩

theorem joinFirst (h : Climbs rank before (.join first second) after) :
    Climbs rank before first (second.enter after) :=
  .of_advances (List.pairwise_append.1 h.ascends).1 h.advances.joinFirst

theorem joinSecond (h : Climbs rank before (.join first second) after) :
    Climbs rank (first.leave before) second after :=
  .of_advances (List.pairwise_append.1 h.ascends).2.1 h.advances.joinSecond

theorem choiceFirst (h : Climbs rank before (.choice first second) after) :
    Climbs rank before first after :=
  .of_advances (List.pairwise_append.1 h.ascends).1 h.advances.choiceFirst

theorem choiceSecond (h : Climbs rank before (.choice first second) after) :
    Climbs rank before second after :=
  .of_advances (List.pairwise_append.1 h.ascends).2.1 h.advances.choiceSecond

/-- A shape may take the place of another one with its leaves. -/
theorem replace {new : Shape} (h : Climbs rank before shape after)
    (hleaves : new.leaves = shape.leaves) : Climbs rank before new after := by
  have hids := Shape.ids_congr hleaves
  refine ⟨?_, hids ▸ h.before_lt, hids ▸ h.lt_after⟩
  rw [Shape.Ascends, hleaves]
  exact h.ascends

/-- All edges around a shape that climbs go to higher ranks. -/
theorem lt_of_mem_around (h : Climbs rank before shape after) {id target : Nat}
    (hedge : (id, target) ∈ shape.around before after) : rank id < rank target :=
  h.advances.lt_of_mem_around hedge

end Climbs

/-! ## Before the bypasses -/

namespace Junction

open Node

variable {rank : Nat → Nat}

mutual

/-- Before there are bypasses, the states that a node is entered by are listed in the order of their
ranks. -/
theorem rising_entries : {node : Node} → node.Sound → (node.shape false).Ascends rank →
    Rising rank node.junction.entries
  | .literal .., _, _ => List.pairwise_singleton _ _
  | .parameter .., _, _ => List.pairwise_singleton _ _
  | .group .., hsound, h => rising_entriesOfAll hsound.2 h

theorem rising_entriesOfAll : {alternatives : List (List Node)} → SoundAll alternatives →
    (shapeOfAll false alternatives).Ascends rank →
    Rising rank (entriesOfAll (junctionsOfAll alternatives))
  | [], _, _ => List.Pairwise.nil
  | alternative :: rest, hsound, h => by
    obtain ⟨hfirst, hsecond, -⟩ := List.pairwise_append.1 h
    -- What enters the first alternative stands before what enters the others, in reading order.
    refine List.pairwise_append.2 ⟨rising_entriesOfFirst hsound.1.2 hfirst,
      rising_entriesOfAll hsound.2 hsecond, ?_⟩
    intro id hid other hother
    have hlead : id ∈ (shapeOfSequence false alternative).ids ∪ ∅ :=
      Shape.enter_subset ((mem_entriesOfFirst_iff hsound.1.1 hsound.1.2).1 hid)
    have hrest : other ∈ (shapeOfAll false rest).ids ∪ ∅ :=
      Shape.enter_subset ((mem_entriesOfAll_iff hsound.2).1 hother)
    rw [Set.union_empty] at hlead hrest
    exact Climbs.lt_of_parts h hlead hrest

theorem rising_entriesOfFirst : {nodes : List Node} → SoundSequence nodes →
    (shapeOfSequence false nodes).Ascends rank →
    Rising rank (entriesOfFirst (junctionsOfSequence nodes))
  | [], _, _ => List.Pairwise.nil
  | _ :: _, hsound, h => rising_entries hsound.1 (List.pairwise_append.1 h).1

end

/-- Two lists of which one is empty: a state has edges from one part of a tree only. -/
theorem rising_append {ids others : List Nat} (hids : Rising rank ids)
    (hothers : Rising rank others) (hnil : ids = [] ∨ others = []) :
    Rising rank (ids ++ others) := by
  rcases hnil with rfl | rfl
  · exact hothers
  · rw [List.append_nil]
    exact hids

/-- Links from one state to a junction give this state the entries of the junction, and other states
nothing. -/
theorem rising_targetsOf_state {source id : Nat} {target : Junction}
    (h : Rising rank target.entries) :
    Rising rank (targetsOf ((state source).links target) id) := by
  have htargets : targetsOf ((state source).links target) id =
      if source = id then target.entries else [] := by
    rw [links, targetsOf, List.filterMap_map]
    split
    · next heq => simp [heq]
    · next hne => simp [hne]
  rw [htargets]
  split
  · exact h
  · exact List.Pairwise.nil

/-- A state outside a node gets no edges by the links of the node. -/
theorem targetsOf_links_eq_nil (target : Junction) {id : Nat} {node : Node} (hsound : node.Sound)
    (h : id ∉ (node.shape false).ids) : targetsOf (node.junction.links target) id = [] := by
  refine targetsOf_eq_nil fun link hlink heq => h ?_
  have hsource := (Shape.around_subset ((mem_links_iff hsound).1 hlink)).1
  rwa [Set.union_empty, heq] at hsource

theorem targetsOf_linksOfAll_eq_nil (target : Junction) {id : Nat}
    {alternatives : List (List Node)} (hsound : SoundAll alternatives)
    (h : id ∉ (shapeOfAll false alternatives).ids) :
    targetsOf (linksOfAll (junctionsOfAll alternatives) target) id = [] := by
  refine targetsOf_eq_nil fun link hlink heq => h ?_
  have hsource := (Shape.around_subset ((mem_linksOfAll_iff hsound).1 hlink)).1
  rwa [Set.union_empty, heq] at hsource

theorem targetsOf_linksOfSequence_eq_nil (target : Junction) {id : Nat} {nodes : List Node}
    (hsound : SoundSequence nodes) (h : id ∉ (shapeOfSequence false nodes).ids) :
    targetsOf (linksOfLast (junctionsOfSequence nodes) target) id = [] ∧
      targetsOf (linksInside (junctionsOfSequence nodes)) id = [] := by
  have hsource (link : Nat × Nat) (hlink : link ∈ linksOfLast (junctionsOfSequence nodes) target ∨
      link ∈ linksInside (junctionsOfSequence nodes)) : link.1 ≠ id := by
    intro heq
    have hmem := (Shape.around_subset ((mem_linksOfSequence_iff hsound).1 hlink)).1
    rw [Set.union_empty, heq] at hmem
    exact h hmem
  exact ⟨targetsOf_eq_nil fun link hlink => hsource link (.inl hlink),
    targetsOf_eq_nil fun link hlink => hsource link (.inr hlink)⟩

mutual

/-- The links of a node to what follows it give each state edges to ascending ranks. -/
theorem rising_targetsOf_links {target : Junction} (htarget : Rising rank target.entries)
    (id : Nat) : {node : Node} → node.Sound → (node.shape false).Ascends rank →
    Rising rank (targetsOf (node.junction.links target) id)
  | .literal .., _, _ => rising_targetsOf_state htarget
  | .parameter .., _, _ => rising_targetsOf_state htarget
  | .group .., hsound, h => rising_targetsOf_linksOfAll htarget id hsound.2 h

theorem rising_targetsOf_linksOfAll {target : Junction} (htarget : Rising rank target.entries)
    (id : Nat) : {alternatives : List (List Node)} → SoundAll alternatives →
    (shapeOfAll false alternatives).Ascends rank →
    Rising rank (targetsOf (linksOfAll (junctionsOfAll alternatives) target) id)
  | [], _, _ => List.Pairwise.nil
  | alternative :: rest, hsound, h => by
    obtain ⟨hfirst, hsecond, -⟩ := List.pairwise_append.1 h
    obtain ⟨hlast, hinside, hnil⟩ :=
      rising_targetsOf_linksOfSequence htarget id hsound.1.2 hfirst
    rw [junctionsOfAll, linksOfAll, targetsOf_append, targetsOf_append]
    refine rising_append (rising_append hlast hinside hnil)
      (rising_targetsOf_linksOfAll htarget id hsound.2 hsecond) ?_
    by_cases hid : id ∈ (shapeOfSequence false alternative).ids
    · exact .inr (targetsOf_linksOfAll_eq_nil target hsound.2 fun hmem =>
        absurd (Climbs.lt_of_parts h hid hmem) (lt_irrefl _))
    · obtain ⟨hlast, hinside⟩ := targetsOf_linksOfSequence_eq_nil target hsound.1.2 hid
      exact .inl (by rw [hlast, hinside, List.append_nil])

/-- A state of a sequence has its edges inside the sequence or out of it. -/
theorem rising_targetsOf_linksOfSequence {target : Junction}
    (htarget : Rising rank target.entries) (id : Nat) : {nodes : List Node} →
    SoundSequence nodes → (shapeOfSequence false nodes).Ascends rank →
    Rising rank (targetsOf (linksOfLast (junctionsOfSequence nodes) target) id) ∧
      Rising rank (targetsOf (linksInside (junctionsOfSequence nodes)) id) ∧
      (targetsOf (linksOfLast (junctionsOfSequence nodes) target) id = [] ∨
        targetsOf (linksInside (junctionsOfSequence nodes)) id = [])
  | [], _, _ => ⟨List.Pairwise.nil, List.Pairwise.nil, .inl rfl⟩
  | [last], hsound, h =>
    ⟨rising_targetsOf_links htarget id hsound.1 (List.pairwise_append.1 h).1, List.Pairwise.nil,
      .inr rfl⟩
  | first :: second :: rest, hsound, h => by
    obtain ⟨hfirst, hsecond, -⟩ := List.pairwise_append.1 h
    have hentries : Rising rank second.junction.entries :=
      rising_entries hsound.2.1 (List.pairwise_append.1 hsecond).1
    have hlead : Rising rank (targetsOf (first.junction.links second.junction) id) :=
      rising_targetsOf_links hentries id hsound.1 hfirst
    obtain ⟨hlast, hinside, hnil⟩ :=
      rising_targetsOf_linksOfSequence htarget id hsound.2 hsecond
    have hsplit : targetsOf (linksInside (junctionsOfSequence (first :: second :: rest))) id =
        targetsOf (first.junction.links second.junction) id ++
          targetsOf (linksInside (junctionsOfSequence (second :: rest))) id := by
      rw [← targetsOf_append]
      rfl
    rw [hsplit]
    by_cases hid : id ∈ (first.shape false).ids
    · have hout : id ∉ (shapeOfSequence false (second :: rest)).ids := fun hmem =>
        absurd (Climbs.lt_of_parts h hid hmem) (lt_irrefl _)
      obtain ⟨hlastNil, hinsideNil⟩ :=
        targetsOf_linksOfSequence_eq_nil target hsound.2 hout
      exact ⟨hlast, rising_append hlead hinside (.inr hinsideNil), .inl hlastNil⟩
    · have hleadNil := targetsOf_links_eq_nil second.junction hsound.1 hid
      refine ⟨hlast, rising_append hlead hinside (.inl hleadNil), ?_⟩
      rw [hleadNil]
      exact hnil

end

/-- The edges of a state through a tree go to ascending ranks. -/
theorem rising_targetsOf_outerLinks {junctions : Junctions} {last id : Nat} {nodes : List Node}
    (hsound : SoundSequence nodes) (h : (shapeOfSequence false nodes).Ascends rank)
    (hzero : 0 ∉ (shapeOfSequence false nodes).ids) (hfirst : junctions.find 0 = .state 0)
    (hlast : junctions.find last = .state last)
    (hnodes : ∀ node ∈ nodes, junctions.find node.id = node.junction) :
    Rising rank (targetsOf (outerLinks junctions last nodes) id) := by
  cases nodes with
  | nil => exact List.Pairwise.nil
  | cons node rest =>
    have hend : Rising rank (Junction.state last).entries := List.pairwise_singleton _ _
    obtain ⟨hout, hinside, hnil⟩ := rising_targetsOf_linksOfSequence hend id hsound h
    have hentries : Rising rank node.junction.entries :=
      rising_entries hsound.1 (List.pairwise_append.1 h).1
    rw [outerLinks_eq hfirst hlast hnodes, targetsOf_append, targetsOf_append, List.append_assoc]
    refine rising_append (rising_targetsOf_state hentries)
      (rising_append hinside hout hnil.symm) ?_
    -- Only the start has edges into the first node, and it stands outside the tree.
    by_cases hid : id = 0
    · subst hid
      obtain ⟨hlastNil, hinsideNil⟩ :=
        targetsOf_linksOfSequence_eq_nil (.state last) hsound hzero
      exact .inr (by rw [hinsideNil, hlastNil, List.append_nil])
    · refine .inl (targetsOf_eq_nil fun link hlink => ?_)
      rw [(mem_links_state_iff.1 hlink).1]
      exact Ne.symm hid

end Junction

/-! ## One bypass -/

namespace Wiring

open Node

variable {wiring wired : Wiring} {rank : Nat → Nat} {others : Set (Nat × Nat)}
  {before after : Set Nat} {junctions : Junctions}

/-- The other edges of the states before a shape lead to lower ranks than the shape and what
follows it. -/
def Clear (rank : Nat → Nat) (others : Set (Nat × Nat)) (before behind : Set Nat) : Prop :=
  ∀ id ∈ before, ∀ target, (id, target) ∈ others → ∀ other ∈ behind, rank target < rank other

theorem Ascending.rising_eraseDups_next (h : wiring.Ascending rank) (id : Nat) :
    Rising rank (wiring.next id).eraseDups := by
  rw [eraseDups_eq_self (h.simple id)]
  exact h id

mutual

/-- The edges out of a node go to ascending ranks when each is listed once. -/
theorem rising_eraseDups_outOfNode {others : Set (Nat × Nat)} {before after : Set Nat}
    (hascending : wiring.Ascending rank) : {node : Node} → node.Sound →
    Sits wiring.edges others before (node.shape false) after →
    Rising rank (wiring.outOfNode node).eraseDups
  | .literal .., _, _ => hascending.rising_eraseDups_next _
  | .parameter .., _, _ => hascending.rising_eraseDups_next _
  | .group .., hsound, h => rising_eraseDups_outOfLasts hascending hsound.2 h

theorem rising_eraseDups_outOfLasts {others : Set (Nat × Nat)} {before after : Set Nat}
    (hascending : wiring.Ascending rank) : {alternatives : List (List Node)} →
    SoundAll alternatives → Sits wiring.edges others before (shapeOfAll false alternatives) after →
    Rising rank (wiring.outOfLasts alternatives).eraseDups
  | [], _, _ => List.Pairwise.nil
  | alternative :: rest, hsound, h => by
    have hfirst := rising_eraseDups_outOfLast hascending hsound.1.2 h.choiceFirst
    have hsecond := rising_eraseDups_outOfLasts hascending hsound.2 h.choiceSecond
    refine pairwise_eraseDups_append hfirst hsecond ?_
    -- All alternatives lead to the same states, so the first one names them all.
    intro id _ other hother hnew
    have hafter := ((mem_outOfLasts_iff hsound.2 h.choiceSecond).1 hother).2
    exact absurd ((mem_outOfLast_iff hsound.1.2 h.choiceFirst).2 ⟨hsound.1.1, hafter⟩) hnew

theorem rising_eraseDups_outOfLast {others : Set (Nat × Nat)} {before after : Set Nat}
    (hascending : wiring.Ascending rank) : {nodes : List Node} → SoundSequence nodes →
    Sits wiring.edges others before (shapeOfSequence false nodes) after →
    Rising rank (wiring.outOfLast nodes).eraseDups
  | [], _, _ => List.Pairwise.nil
  | [_], hsound, h => rising_eraseDups_outOfNode hascending hsound.1 h.joinFirst
  | _ :: second :: rest, hsound, h => by
    rw [outOfLast]
    · exact rising_eraseDups_outOfLast hascending hsound.2 h.joinSecond
    · nofun

end

/-- Where no junction leads on, a bypass is the product of the states with an edge into the node and
those that it has edges to. -/
theorem bypassLinks_eq {node : Node} (hsound : node.Sound)
    (h : Sits wiring.edges others before (node.shape false) after)
    (hstates : Routed junctions wiring (before ∪ after)) :
    wiring.bypassLinks junctions node = (wiring.intoNode node).flatMap fun source =>
      (wiring.outOfNode node).map fun target => (source, target) := by
  refine List.flatMap_congr fun source hsource => ?_
  rw [List.map_eq_flatMap]
  refine List.flatMap_congr fun target htarget => ?_
  rw [(hstates source (.inl ((mem_intoNode_iff hsound h).1 hsource))).2,
    (hstates target (.inr ((mem_outOfNode_iff hsound h).1 htarget))).2]
  rfl

/-- In such a product every source has the same targets. -/
theorem rising_eraseDups_targetsOf {sources targets : List Nat} {id : Nat}
    (h : Rising rank targets.eraseDups) : Rising rank (targetsOf (sources.flatMap fun source =>
      targets.map fun target => (source, target)) id).eraseDups := by
  induction sources with
  | nil => exact List.Pairwise.nil
  | cons source sources ih =>
    rw [List.flatMap_cons, targetsOf_append]
    by_cases hid : source = id
    · have hall : targetsOf (targets.map fun target => (source, target)) id = targets := by
        simp [targetsOf, List.filterMap_map, hid]
      rw [hall]
      refine pairwise_eraseDups_append h ih ?_
      intro _ _ target htarget hnew
      rw [mem_targetsOf_iff] at htarget
      simp only [List.mem_flatMap, List.mem_map, Prod.mk.injEq] at htarget
      obtain ⟨_, _, _, hmem, _, rfl⟩ := htarget
      exact absurd hmem hnew
    · have hnone : targetsOf (targets.map fun target => (source, target)) id = [] :=
        targetsOf_eq_nil (by simp [hid])
      rw [hnone, List.nil_append]
      exact ih

/-- A bypass keeps the order where the states before the node have no edge to what stands behind
it, edges around the node apart. -/
theorem Ascending.connectAll?_bypassLinks {node : Node} (hascending : wiring.Ascending rank)
    (hsound : node.Sound) (h : Sits wiring.edges others before (node.shape false) after)
    (hstates : Routed junctions wiring (before ∪ after))
    (hclimbs : Climbs rank before (node.shape false) after)
    (hclear : Clear rank others before ((node.shape false).ids ∪ after))
    (hwired : wiring.connectAll? (wiring.bypassLinks junctions node) = .ok wired) :
    wired.Ascending rank := by
  intro id
  have hadded : Rising rank (targetsOf (wiring.bypassLinks junctions node) id).eraseDups := by
    rw [bypassLinks_eq hsound h hstates]
    exact rising_eraseDups_targetsOf (rising_eraseDups_outOfNode hascending hsound h)
  rw [next_of_connectAll?_eq_ok hwired (hascending.simple id)]
  refine pairwise_eraseDups_append (hascending.rising_eraseDups_next id) hadded ?_
  intro target htarget other hother hnew
  rw [mem_targetsOf_iff, mem_bypassLinks_iff hsound h hstates] at hother
  obtain ⟨hbefore, hafter⟩ := hother
  rw [← mem_edges_iff, h.edges_eq] at htarget hnew
  -- An edge of a state before the node is one from elsewhere, one into the node, or one over the
  -- node; the bypass adds no edge that is there.
  rcases htarget with htarget | htarget | htarget
  · exact hclear id hbefore target htarget other (.inr hafter)
  · exact hclimbs.lt_after target (Shape.inflow_subset htarget).2 other hafter
  · exact absurd (.inr (.inr ⟨htarget.1, hafter⟩)) hnew

/-! ## The bypasses of an orderly tree -/

mutual

/-- A walk over a firm node has met a leaf of it. -/
theorem leave_subset_of_firm {before : Set Nat} : {node : Node} → node.firm = true →
    (node.shape true).leave before ⊆ (node.shape true).ids
  | .literal .., _ => by simp [shape, Shape.leave]
  | .parameter _ _ optional, h => by
    obtain rfl : optional = false := by simpa [firm] using h
    simp [shape, Shape.leave]
  | .group _ alternatives optional, h => by
    obtain ⟨hoptional, hall⟩ : optional = false ∧ firmAll alternatives = true := by
      simpa [firm] using h
    subst hoptional
    exact leave_subset_of_firmAll hall
  | .separator _, _ => by simp [shape, Shape.leave]

theorem leave_subset_of_firmSequence {before : Set Nat} : {nodes : List Node} →
    firmSequence nodes = true →
    (shapeOfSequence true nodes).leave before ⊆ (shapeOfSequence true nodes).ids
  | [], h => by simp [firmSequence] at h
  | node :: rest, h => by
    have hnode : (node.shape true).leave before ⊆ (node.shape true).ids := leave_subset_of_firm h
    have hrest : (shapeOfSequence true rest).leave ((node.shape true).leave before) ⊆
        (shapeOfSequence true rest).ids ∪ (node.shape true).leave before := Shape.leave_subset
    rw [shapeOfSequence, Shape.leave, Shape.ids_join, Set.union_comm]
    exact hrest.trans (Set.union_subset_union_right _ hnode)

theorem leave_subset_of_firmAll {before : Set Nat} : {alternatives : List (List Node)} →
    firmAll alternatives = true →
    (shapeOfAll true alternatives).leave before ⊆ (shapeOfAll true alternatives).ids
  | [], _ => by simp [shapeOfAll, Shape.leave]
  | alternative :: rest, h => by
    rw [firmAll, Bool.and_eq_true] at h
    rw [shapeOfAll, Shape.leave, Shape.ids_choice]
    exact Set.union_subset_union (leave_subset_of_firmSequence h.1) (leave_subset_of_firmAll h.2)

end

namespace Clear

open Shape

variable {edges : Set (Nat × Nat)} {first second : Shape}

/-- The second of two shapes to choose from is clear of the edges around the first one, if the first
one cannot be left out. -/
theorem choiceSecond (h : Clear rank others before ((Shape.choice first second).ids ∪ after))
    (hsits : Sits edges others before (.choice first second) after)
    (hclimbs : Climbs rank before (.choice first second) after)
    (hleave : first.leave before ⊆ first.ids) :
    Clear rank (others ∪ first.around before after) before (second.ids ∪ after) := by
  intro id hid target hedge other hother
  have hout : id ∉ (Shape.choice first second).ids := hsits.before_apart hid
  rw [ids_choice, Set.mem_union, not_or] at hout
  rcases hedge with hedge | hedge | hedge
  · exact h id hid target hedge other (hother.imp_left fun hmem => by simp [hmem])
  · have htarget := (inflow_subset hedge).2
    rcases hother with hother | hother
    · exact Climbs.lt_of_parts hclimbs.ascends htarget hother
    · exact hclimbs.lt_after target (by simp [htarget]) other hother
  · exact absurd (hleave hedge.1) hout.1

/-- The first part of a sequence is clear of the edges around the second one, since no state before
the sequence has any of these. -/
theorem joinFirst (h : Clear rank others before ((Shape.join first second).ids ∪ after))
    (hsits : Sits edges others before (.join first second) after) :
    Clear rank (others ∪ second.around ∅ after) before (first.ids ∪ second.enter after) := by
  intro id hid target hedge other hother
  have hout : id ∉ (Shape.join first second).ids := hsits.before_apart hid
  rw [ids_join, Set.mem_union, not_or] at hout
  rcases hedge with hedge | hedge
  · refine h id hid target hedge other ?_
    rw [ids_join, Set.union_assoc]
    exact hother.imp_right fun hmem => enter_subset hmem
  · have hsource := (around_subset hedge).1
    rw [Set.union_empty] at hsource
    exact absurd hsource hout.2

/-- Behind the first part of a join, the other edges lead into that part. -/
theorem joinSecond (hsits : Sits edges others before (.join first second) after)
    (hclimbs : Climbs rank before (.join first second) after)
    (h : first.leave before ⊆ first.ids ∨
      Clear rank others before ((Shape.join first second).ids ∪ after)) :
    Clear rank (others ∪ first.inflow before) (first.leave before) (second.ids ∪ after) := by
  intro id hid target hedge other hother
  rcases hedge with hedge | hedge
  · -- An edge from elsewhere starts outside the sequence, so its state has not met the first part.
    have hout : id ∉ (Shape.join first second).ids := (hsits.others_apart hedge).1
    rw [ids_join, Set.mem_union, not_or] at hout
    rcases h with hleave | hclear
    · exact absurd (hleave hid) hout.1
    · refine hclear id ((leave_subset hid).resolve_left hout.1) target hedge other ?_
      exact hother.imp_left fun hmem => by simp [hmem]
  · have htarget := (inflow_subset hedge).2
    rcases hother with hother | hother
    · exact Climbs.lt_of_parts hclimbs.ascends htarget hother
    · exact hclimbs.lt_after target (by simp [htarget]) other hother

end Clear

mutual

/-- In an orderly node the bypasses keep the order, if the node is firm or the states before it are
clear of what it may add. -/
theorem Ascending.bypass? {wiring wired : Wiring} {others : Set (Nat × Nat)}
    {before after : Set Nat} : {node : Node} → node.Sound → node.orderly = true →
    Sits wiring.edges others before (node.shape false) after →
    Routed junctions wiring ((node.shape false).span before after) →
    Climbs rank before (node.shape false) after →
    node.firm = true ∨ Clear rank others before ((node.shape false).ids ∪ after) →
    wiring.Ascending rank → bypass? junctions wiring node = .ok wired → wired.Ascending rank
  | .literal .., _, _, _, _, _, _, hascending, hwired => Except.ok.inj hwired ▸ hascending
  | .parameter _ _ false, _, _, _, _, _, _, hascending, hwired => Except.ok.inj hwired ▸ hascending
  | .parameter _ _ true, hsound, _, h, hstates, hclimbs, hclear, hascending, hwired =>
    hascending.connectAll?_bypassLinks hsound h (hstates.mono Shape.subset_span) hclimbs
      (hclear.resolve_left (by simp [firm])) hwired
  | .group _ _ false, hsound, horderly, h, hstates, hclimbs, hclear, hascending, hwired =>
    Ascending.bypassAlternatives? hsound.2 horderly h hstates hclimbs
      (hclear.imp_left fun hfirm => by simpa [firm] using hfirm) hascending hwired
  | .group _ alternatives true, hsound, horderly, h, hstates, hclimbs, hclear, hascending,
      hwired => by
    obtain ⟨between, hbetween, hrest⟩ := bind_eq_ok_iff.1 hwired
    obtain ⟨_, hsame, hover⟩ := Wiring.connectAll?_bypassLinks hsound h
      (hstates.mono Shape.subset_span)
    obtain rfl := Except.ok.inj (hbetween.symm.trans hsame)
    have hinner : Sits between.edges (others ∪ before ×ˢ after) before
        (shapeOfAll false alternatives) after := hover.edges_eq ▸ h.stepOver
    -- Something follows every alternative of an optional group, so all of them are firm.
    exact Ascending.bypassAlternatives? hsound.2 horderly hinner (hover.routed hstates) hclimbs
      (.inl (firmAll_of_orderlyAll horderly))
      (hascending.connectAll?_bypassLinks hsound h (hstates.mono Shape.subset_span) hclimbs
        (hclear.resolve_left (by simp [firm])) hbetween) hrest

theorem Ascending.bypassAlternatives? {wiring wired : Wiring} {others : Set (Nat × Nat)}
    {before after : Set Nat} {followed : Bool} : {alternatives : List (List Node)} →
    SoundAll alternatives → orderlyAll followed alternatives = true →
    Sits wiring.edges others before (shapeOfAll false alternatives) after →
    Routed junctions wiring ((shapeOfAll false alternatives).span before after) →
    Climbs rank before (shapeOfAll false alternatives) after →
    firmAll alternatives = true ∨
      Clear rank others before ((shapeOfAll false alternatives).ids ∪ after) →
    wiring.Ascending rank → bypassAlternatives? junctions wiring alternatives = .ok wired →
    wired.Ascending rank
  | [], _, _, _, _, _, _, hascending, hwired => Except.ok.inj hwired ▸ hascending
  | alternative :: rest, hsound, horderly, h, hstates, hclimbs, hclear, hascending, hwired => by
    obtain ⟨between, hbetween, hmore⟩ := bind_eq_ok_iff.1 hwired
    obtain ⟨_, hsame, hfirst⟩ := bypassSequence?_of_sits hsound.1.2 h.choiceFirst
      (hstates.mono Shape.span_choiceFirst_subset)
    obtain rfl := Except.ok.inj (hbetween.symm.trans hsame)
    have hrest := h.replaceChoiceFirst (leaves_shapeOfSequence_eq alternative) hfirst.edges_eq
    have hleaves : (Shape.choice (shapeOfSequence true alternative)
        (shapeOfAll false rest)).leaves = (shapeOfAll false (alternative :: rest)).leaves := by
      rw [Shape.leaves, leaves_shapeOfSequence_eq, shapeOfAll, Shape.leaves]
    have hclimbsRest := hclimbs.replace hleaves
    rw [orderlyAll, Bool.and_eq_true, Bool.and_eq_true, Bool.or_eq_true, Bool.and_eq_true]
      at horderly
    obtain ⟨⟨halternative, hfollowed⟩, hall⟩ := horderly
    -- An alternative that others follow is firm; what the last one adds may come last.
    have hclearFirst : firmSequence alternative = true ∨
        Clear rank (others ∪ (shapeOfAll false rest).around before after) before
          ((shapeOfSequence false alternative).ids ∪ after) := by
      rcases hfollowed with hfirm | ⟨hlast, -⟩
      · exact .inl hfirm
      · obtain rfl := List.isEmpty_iff.1 hlast
        refine hclear.imp (fun hfirm => (Bool.and_eq_true_iff.1 hfirm).1) fun hclear => ?_
        rw [shapeOfAll, Shape.around_nothing, Set.union_empty]
        intro id hid target hedge other hother
        exact hclear id hid target hedge other
          (hother.imp_left fun hmem => by simp [shapeOfAll, hmem])
    have hclearRest : firmAll rest = true ∨
        Clear rank (others ∪ (shapeOfSequence true alternative).around before after) before
          ((shapeOfAll false rest).ids ∪ after) := by
      rcases hclear with hfirm | hclear
      · exact .inl (Bool.and_eq_true_iff.1 hfirm).2
      · rcases hfollowed with hfirm | ⟨hlast, -⟩
        · rw [← Shape.ids_congr hleaves] at hclear
          exact .inr (hclear.choiceSecond hrest hclimbsRest (leave_subset_of_firmSequence hfirm))
        · obtain rfl := List.isEmpty_iff.1 hlast
          exact .inl rfl
    exact Ascending.bypassAlternatives? hsound.2 hall hrest.choiceSecond
      (hfirst.routed (hstates.mono Shape.span_choiceSecond_subset)) hclimbsRest.choiceSecond
      hclearRest
      (Ascending.bypassSequence? hsound.1.2 halternative h.choiceFirst
        (hstates.mono Shape.span_choiceFirst_subset) hclimbs.choiceFirst hclearFirst hascending
        hbetween) hmore

theorem Ascending.bypassSequence? {wiring wired : Wiring} {others : Set (Nat × Nat)}
    {before after : Set Nat} : {nodes : List Node} → SoundSequence nodes →
    orderlySequence nodes = true →
    Sits wiring.edges others before (shapeOfSequence false nodes) after →
    Routed junctions wiring ((shapeOfSequence false nodes).span before after) →
    Climbs rank before (shapeOfSequence false nodes) after →
    firmSequence nodes = true ∨
      Clear rank others before ((shapeOfSequence false nodes).ids ∪ after) →
    wiring.Ascending rank → bypassSequence? junctions wiring nodes = .ok wired →
    wired.Ascending rank
  | [], _, _, _, _, _, _, hascending, hwired => Except.ok.inj hwired ▸ hascending
  | node :: rest, hsound, horderly, h, hstates, hclimbs, hclear, hascending, hwired => by
    obtain ⟨between, hbetween, hmore⟩ := bind_eq_ok_iff.1 hwired
    obtain ⟨_, hsame, hfirst⟩ := bypass?_of_sits hsound.1 h.joinFirst
      (hstates.mono Shape.span_joinFirst_subset)
    obtain rfl := Except.ok.inj (hbetween.symm.trans hsame)
    have hrest := h.replaceJoinFirst (leaves_shape_eq node) hfirst.edges_eq
    have hleaves : (Shape.join (node.shape true) (shapeOfSequence false rest)).leaves =
        (shapeOfSequence false (node :: rest)).leaves := by
      rw [Shape.leaves, leaves_shape_eq, shapeOfSequence, Shape.leaves]
    have hclimbsRest := hclimbs.replace hleaves
    rw [orderlySequence, Bool.and_eq_true] at horderly
    have hclearRest : (node.shape true).leave before ⊆ (node.shape true).ids ∨
        Clear rank others before
          ((Shape.join (node.shape true) (shapeOfSequence false rest)).ids ∪ after) := by
      rw [Shape.ids_congr hleaves]
      exact hclear.imp_left leave_subset_of_firm
    exact Ascending.bypassSequence? hsound.2 horderly.2 hrest.joinSecond
      (hfirst.routed (hstates.mono
        (Shape.span_joinSecond_subset.trans (Shape.span_congr hleaves).subset)))
      hclimbsRest.joinSecond
      (.inr (Clear.joinSecond hrest hclimbsRest hclearRest))
      (Ascending.bypass? hsound.1 horderly.1 h.joinFirst
        (hstates.mono Shape.span_joinFirst_subset) hclimbs.joinFirst
        (hclear.imp_right fun hclear => hclear.joinFirst h) hascending hbetween) hmore

end

end Wiring

end RoutePattern
