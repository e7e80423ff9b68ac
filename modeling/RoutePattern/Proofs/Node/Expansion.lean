import Mathlib.Data.Finset.NAry
import RoutePattern.Proofs.Automaton.Outcome
import RoutePattern.Proofs.Node.Reading

/-!
# What trees expand to

A tree that was read makes an automaton if there are not too many different ways through it and
captures touch on none of them: `Expands` says this with a bound of its own
(`exists_pathsOf_iff_expands`). What is put behind a tree multiplies its ways, if no leaf stands in
both parts (`length_waysOfSequence_append`). A literal there changes nothing
(`expands_concat_literal_iff`), so neither do the literal characters that a draft goes on with
(`Draft.expands_addChar_iff`).
-/

namespace RoutePattern

/-! ## Different elements -/

section Counting

variable {α : Type}

/-- There are as many different elements as in the finite set of them. -/
theorem length_eraseDups [BEq α] [LawfulBEq α] [DecidableEq α] (l : List α) :
    l.eraseDups.length = l.toFinset.card := by
  rw [← List.toFinset_card_of_nodup (nodup_eraseDups l)]
  congr 1
  ext a
  simp [List.mem_eraseDups]

/-- Lists put together of one of some lists and one of others, if they can be taken apart again. -/
theorem length_eraseDups_flatMap_append [DecidableEq α] {leads others : List (List α)}
    (h : ∀ lead ∈ leads, ∀ first ∈ leads, ∀ other ∈ others, ∀ second ∈ others,
      lead ++ other = first ++ second → lead = first ∧ other = second) :
    (leads.flatMap fun lead => others.map (lead ++ ·)).eraseDups.length =
      leads.eraseDups.length * others.eraseDups.length := by
  have himage : (leads.flatMap fun lead => others.map (lead ++ ·)).toFinset =
      Finset.image₂ (· ++ ·) leads.toFinset others.toFinset := by
    ext way
    simp [Finset.mem_image₂]
  rw [length_eraseDups, length_eraseDups, length_eraseDups, himage, Finset.card_image₂_iff]
  rintro ⟨lead, other⟩ hleft ⟨first, second⟩ hright heq
  simp only [Set.mem_prod, Finset.mem_coe, List.mem_toFinset] at hleft hright
  obtain ⟨rfl, rfl⟩ := h lead hleft.1 first hright.1 other hleft.2 second hright.2 heq
  rfl

end Counting

namespace Node

/-! ## Ways through a sequence put behind another -/

/-- A way through two sequences is one through the first and then one through the second. -/
theorem waysOfSequence_append (nodes others : List Node) : waysOfSequence (nodes ++ others) =
    (waysOfSequence nodes).flatMap fun lead => (waysOfSequence others).map (lead ++ ·) := by
  induction nodes with
  | nil => simp [waysOfSequence]
  | cons node nodes ih =>
    simp [waysOfSequence, ih, List.flatMap_assoc, List.flatMap_map, List.map_flatMap,
      Function.comp_def]

theorem forall_waysOfSequence_append {nodes others : List Node} {p : List Leaf → Prop} :
    (∀ way ∈ waysOfSequence (nodes ++ others), p way) ↔
      ∀ lead ∈ waysOfSequence nodes, ∀ other ∈ waysOfSequence others, p (lead ++ other) := by
  simp only [waysOfSequence_append, List.forall_mem_flatMap, List.forall_mem_map]

theorem waysOfSequence_literal (id : Nat) (text : Text) :
    waysOfSequence [literal id text] = [[⟨id, .fixed text⟩]] := rfl

/-- The numbers of different ways multiply: the leaves tell where the second sequence begins. -/
theorem length_waysOfSequence_append {nodes others : List Node}
    (h : ∀ leaf ∈ leavesOf nodes, leaf ∉ leavesOf others) :
    (waysOfSequence (nodes ++ others)).eraseDups.length =
      (waysOfSequence nodes).eraseDups.length * (waysOfSequence others).eraseDups.length := by
  rw [waysOfSequence_append]
  refine length_eraseDups_flatMap_append fun lead hlead first hfirst other hother second hsecond
    heq => ?_
  -- The part in the first sequence is made of the leaves that stand there.
  have hpart {lead other : List Leaf} (hlead : lead ∈ waysOfSequence nodes)
      (hother : other ∈ waysOfSequence others) :
      (lead ++ other).filter (· ∈ leavesOf nodes) = lead := by
    rw [List.filter_append, List.filter_eq_self.2, List.filter_eq_nil_iff.2, List.append_nil]
    · intro leaf hleaf
      have hmem := mem_leavesOf_of_mem_way hother hleaf
      simpa using fun hown => h leaf hown hmem
    · intro leaf hleaf
      simpa using mem_leavesOf_of_mem_way hlead hleaf
  obtain rfl : lead = first := by
    rw [← hpart hlead hother, heq, hpart hfirst hsecond]
  exact ⟨rfl, List.append_cancel_left heq⟩

/-! ## Expansions -/

/-- At most `bound` different ways lead through the tree, and on none of them captures touch. -/
structure Expands (nodes : List Node) (bound : Nat) : Prop where
  few : (waysOfSequence nodes).eraseDups.length ≤ bound
  parted : ∀ way ∈ waysOfSequence nodes, ¬ (pathOf way).Touching

/-- The end state of a path does not matter for captures that touch. -/
theorem not_touching_pathOf_iff {way : List Leaf} :
    ¬ (pathOf way).Touching ↔ Path.adjacentAfter none (way.map Leaf.kind) = none := by
  rw [← Path.adjacentAfter_none_eq_none_iff, pathOf,
    Path.adjacentAfter_append_of_no_capture (by simp)]

theorem expands_iff {nodes : List Node} {bound : Nat} : Expands nodes bound ↔
    (waysOfSequence nodes).eraseDups.length ≤ bound ∧
      ∀ way ∈ waysOfSequence nodes, Path.adjacentAfter none (way.map Leaf.kind) = none := by
  simp only [← not_touching_pathOf_iff]
  exact ⟨fun h => ⟨h.few, h.parted⟩, fun h => ⟨h.1, h.2⟩⟩

/-- A literal at the end adds no way, and no captures touch because of it. -/
theorem expands_concat_literal_iff {nodes : List Node} {id bound : Nat} {text : Text} :
    Expands (nodes ++ [literal id text]) bound ↔ Expands nodes bound := by
  have hcount : (waysOfSequence (nodes ++ [literal id text])).eraseDups.length =
      (waysOfSequence nodes).eraseDups.length := by
    rw [waysOfSequence_append, waysOfSequence_literal, length_eraseDups_flatMap_append]
    · exact Nat.mul_one _
    · intro lead _ first _ other hother second hsecond heq
      obtain rfl := List.mem_singleton.1 hother
      obtain rfl := List.mem_singleton.1 hsecond
      exact ⟨List.append_cancel_right heq, rfl⟩
  rw [expands_iff, expands_iff, hcount, forall_waysOfSequence_append]
  refine and_congr_right fun _ => forall₂_congr fun lead _ => ?_
  rw [waysOfSequence_literal, List.forall_mem_singleton, List.map_append,
    Path.adjacentAfter_append_of_no_capture (by simp)]

end Node

open Node

namespace Draft

/-- Reading a literal character does not change what the draft expands to. -/
theorem expands_addChar_iff (draft : Draft) (c : Char) (bound : Nat) :
    Expands (draft.addChar c).nodes.reverse bound ↔ Expands draft.nodes.reverse bound := by
  unfold addChar
  split
  · next id text before heq =>
    rw [heq, List.reverse_cons, List.reverse_cons, expands_concat_literal_iff,
      expands_concat_literal_iff]
  · rw [List.reverse_cons, expands_concat_literal_iff]

/-- Neither does the empty literal that stands for an empty sequence. -/
theorem expands_filled_iff (lastId : Nat) (nodes : List Node) (bound : Nat) :
    Expands (filled lastId nodes).1 bound ↔ Expands nodes.reverse bound := by
  cases nodes with
  | nil => exact @expands_concat_literal_iff [] (lastId + 1) bound []
  | cons node nodes => rfl

end Draft

/-! ## Patterns -/

/-- The patterns with paths are those that expand to a limited number of ways. -/
theorem exists_pathsOf_iff_expands {pattern : Text} : (∃ paths, pathsOf pattern = .ok paths) ↔
    ∃ nodes, parse pattern = .ok nodes ∧ Expands nodes maxPaths := by
  rw [exists_pathsOf_eq_ok_iff]
  refine exists_congr fun nodes => and_congr_right fun _ => ?_
  exact ⟨fun h => ⟨h.1, h.2⟩, fun h => ⟨h.few, h.parted⟩⟩

/-- The tree of a pattern is that of the draft that it is read to, if no group is left open. -/
theorem parse_eq_ok_iff {pattern : Text} {nodes : List Node} : parse pattern = .ok nodes ↔
    pattern.byteLength ≤ maxPatternLength ∧ ∃ draft, Draft.empty.readText 0 pattern = .ok draft ∧
      draft.groups = [] ∧ nodes = (Draft.filled draft.lastId draft.nodes).1 := by
  have hread : readTree pattern = .ok nodes ↔ ∃ draft, Draft.empty.readText 0 pattern = .ok draft ∧
      draft.groups = [] ∧ nodes = (Draft.filled draft.lastId draft.nodes).1 := by
    rw [readTree_eq_bind, bind_eq_ok_iff]
    refine exists_congr fun draft => and_congr_right fun _ => ?_
    cases hgroups : draft.groups with
    | nil => simp [Draft.finish, hgroups, eq_comm]
    | cons opened outer => simp [Draft.finish, hgroups]
  rw [← hread]
  unfold parse
  split
  · next hlong =>
    refine iff_of_false (by simp) ?_
    rintro ⟨hle, -⟩
    omega
  · next hshort =>
    rw [and_iff_right (by omega)]
    split
    · next heq => rw [heq, Except.ok.injEq, Except.ok.injEq]
    · next heq => simp [heq]

/-- As many walks are listed for a pattern as there are different ways through its tree. -/
theorem length_walks_of_parse {pattern : Text} {nodes : List Node} {graph : Graph Unit}
    {found : List (Path Unit)} (hparse : parse pattern = .ok nodes)
    (hcompile : compile nodes = .ok graph) (hfound : walks graph = .ok found) :
    found.length = (waysOfSequence nodes).eraseDups.length := by
  obtain ⟨_, order, hown, -, hperm, -, hwalks⟩ := (isTree_of_parse hparse).exists_listing
  obtain rfl := Except.ok.inj (hcompile.symm.trans hown)
  rw [hwalks] at hfound
  split at hfound
  · obtain rfl := Except.ok.inj hfound
    rw [List.length_map, hperm.length_eq]
  · cases hfound

end RoutePattern
