import Mathlib.Data.Set.Card
import Mathlib.Logic.Relation
import RoutePattern.Proofs.Graph.Exploration

/-!
# What an exploration lists

Two walks may meet the same kinds, so a walk is told by the places of the edges that it takes
(`EdgeWalk`). `walks` lists these walks in the order of their edges, each once, and it does so
exactly for the graphs that no walk can fail in (`walks_outcomes`): what can be reached from the
start state is there and is on no cycle. Only then a search with as many edges as there are states
has room for every walk (`roomy_iff`), since a walk that meets no state twice meets at most all.
-/

namespace RoutePattern

variable {τ : Type}

open Relation

/-! ## Room for every walk -/

/-- A walk that is at the state `source` can go on to `target`. -/
def Leads (graph : Graph τ) (source target : Nat) : Prop :=
  ∃ state, graph[source]? = some state ∧ state.kind.isAccept = false ∧ target ∈ state.next

/-- Whatever a walk from the state `id` can come to is there and on no cycle. -/
structure Explorable (graph : Graph τ) (id : Nat) : Prop where
  lt_size : ∀ other, ReflTransGen (Leads graph) id other → other < graph.size
  acyclic : ∀ other, ReflTransGen (Leads graph) id other → ¬ TransGen (Leads graph) other other

variable {graph : Graph τ} {room id target : Nat}

theorem Explorable.of_leads (h : Explorable graph id) (hlead : Leads graph id target) :
    Explorable graph target :=
  ⟨fun other hother => h.lt_size other (hother.head hlead),
    fun other hother => h.acyclic other (hother.head hlead)⟩

namespace Roomy

theorem lt_size (h : Roomy graph room id) : id < graph.size := by
  by_contra hge
  have hnone : graph[id]? = none := Array.getElem?_eq_none (Nat.le_of_not_lt hge)
  rw [Roomy.eq_def] at h
  simp [hnone] at h

/-- Going on takes of the room. -/
theorem of_leads (h : Roomy graph room id) (hlead : Leads graph id target) :
    ∃ less, room = less + 1 ∧ Roomy graph less target := by
  obtain ⟨state, hstate, hkind, htarget⟩ := hlead
  rw [Roomy.eq_def] at h
  simp only [hstate, hkind, Bool.false_eq_true, false_or] at h
  cases room with
  | zero => simp [h] at htarget
  | succ less => exact ⟨less, rfl, h target htarget⟩

/-- There is room left wherever a walk can come to. -/
theorem exists_of_reaches (h : Roomy graph room id) {other : Nat}
    (hother : ReflTransGen (Leads graph) id other) : ∃ less, Roomy graph less other := by
  induction hother with
  | refl => exact ⟨room, h⟩
  | tail _ hlead ih =>
    obtain ⟨between, hbetween⟩ := ih
    obtain ⟨less, -, hless⟩ := hbetween.of_leads hlead
    exact ⟨less, hless⟩

/-- On a cycle a walk goes on without an end. -/
theorem not_cycle (h : Roomy graph room id) : ¬ TransGen (Leads graph) id id := by
  induction room generalizing id with
  | zero =>
    intro hcycle
    obtain ⟨next, hlead, -⟩ := TransGen.head'_iff.1 hcycle
    obtain ⟨less, hless, -⟩ := h.of_leads hlead
    omega
  | succ room ih =>
    intro hcycle
    obtain ⟨next, hlead, hback⟩ := TransGen.head'_iff.1 hcycle
    obtain ⟨less, hless, hnext⟩ := h.of_leads hlead
    obtain rfl : room = less := by omega
    exact ih hnext (.tail' hback hlead)

/-- A search with room for every walk stays in the graph and off its cycles. -/
theorem explorable (h : Roomy graph room id) : Explorable graph id where
  lt_size _ hother :=
    let ⟨_, hless⟩ := h.exists_of_reaches hother
    hless.lt_size
  acyclic _ hother :=
    let ⟨_, hless⟩ := h.exists_of_reaches hother
    hless.not_cycle

end Roomy

/-- A walk that has come through the states `seen` has met none of them twice. -/
theorem Explorable.length_lt (h : Explorable graph id) {seen : List Nat} (hnodup : seen.Nodup)
    (hseen : ∀ other ∈ seen, other < graph.size ∧ TransGen (Leads graph) other id) :
    seen.length < graph.size := by
  have hnew : (id :: seen).Nodup :=
    List.nodup_cons.2 ⟨fun hmem => h.acyclic id .refl (hseen id hmem).2, hnodup⟩
  -- Different states of the graph are no more than it has.
  have hall : id :: seen ⊆ List.range graph.size := by
    intro other hother
    rcases List.mem_cons.1 hother with rfl | hmem
    · exact List.mem_range.2 (h.lt_size _ .refl)
    · exact List.mem_range.2 (hseen other hmem).1
  simpa using (hnew.subperm hall).length_le

/-- The states that a walk has not come through are room enough for it to go on. -/
theorem Explorable.roomy_of_seen (h : Explorable graph id) {seen : List Nat} (hnodup : seen.Nodup)
    (hseen : ∀ other ∈ seen, other < graph.size ∧ TransGen (Leads graph) other id)
    (hroom : graph.size ≤ room + seen.length) : Roomy graph room id := by
  induction room generalizing id seen with
  | zero =>
    have hlt := h.length_lt hnodup hseen
    omega
  | succ room ih =>
    have hlt := h.lt_size id .refl
    rw [Roomy.eq_def]
    simp only [Array.getElem?_eq_getElem hlt]
    by_cases hkind : graph[id].kind.isAccept = true
    · exact .inl hkind
    · refine .inr fun target htarget => ?_
      have hlead : Leads graph id target :=
        ⟨graph[id], Array.getElem?_eq_getElem hlt, Bool.eq_false_iff.2 hkind, htarget⟩
      -- A state that the walk came through and comes back to would be on a cycle.
      have hid : id ∉ seen := fun hmem => h.acyclic id .refl (hseen id hmem).2
      refine ih (h.of_leads hlead) (List.nodup_cons.2 ⟨hid, hnodup⟩) ?_ ?_
      · intro other hother
        rcases List.mem_cons.1 hother with rfl | hmem
        · exact ⟨hlt, .single hlead⟩
        · exact ⟨(hseen other hmem).1, (hseen other hmem).2.tail hlead⟩
      · rw [List.length_cons]
        omega

/-- A search with as many edges as there are states has room for every walk, unless a walk can come
to a state that is not there or on a cycle. -/
theorem roomy_iff : Roomy graph graph.size id ↔ Explorable graph id :=
  ⟨Roomy.explorable, fun h => h.roomy_of_seen .nil nofun (Nat.le_add_right _ _)⟩

/-- A search that succeeds had room for every walk. -/
theorem roomy_of_exploreFrom {trail : Path τ} {found result : Array (Path τ)}
    (h : exploreFrom graph room id trail found = .ok result) : Roomy graph room id := by
  fun_induction exploreFrom graph room id trail found generalizing result with
  | case1 => cases h
  | case2 => cases h
  | case3 room id trail found state hstate longer hkind =>
    rw [Roomy.eq_def]
    simp [hstate, hkind]
  | case4 id trail found state hstate hkind hempty =>
    rw [Roomy.eq_def]
    simp only [hstate]
    exact .inr (Array.isEmpty_iff.1 hempty)
  | case5 => cases h
  | case6 id trail found state hstate longer hkind room =>
    next ih =>
      rw [Roomy.eq_def]
      simp only [hstate]
      refine .inr fun target htarget => ?_
      obtain ⟨before, after, hstep⟩ :=
        exists_step_of_foldlM_eq_ok h (Array.mem_toList_iff.2 htarget)
      exact ih before target hstep

/-- A search fails for too many paths or for a fault of the graph. -/
theorem exploreFrom_eq_error {trail : Path τ} {found : Array (Path τ)} {error : PatternError}
    (h : exploreFrom graph room id trail found = .error error) :
    error = .tooManyPaths ∨ ∃ fault, error = .malformed fault := by
  fun_induction exploreFrom graph room id trail found with
  | case1 => exact .inr ⟨_, (Except.error.inj h).symm⟩
  | case2 => exact .inl (Except.error.inj h).symm
  | case3 => cases h
  | case4 => cases h
  | case5 => exact .inr ⟨_, (Except.error.inj h).symm⟩
  | case6 id trail found state hstate longer hkind room =>
    next ih =>
      obtain ⟨before, target, hstep⟩ := exists_step_of_foldlM_eq_error h
      exact ih before target hstep

/-! ## Walks by their edges -/

/-- A walk from the state `id` to an end state: the edges that it takes, by their places among the
edges of their states, and the path of the kinds that it meets. -/
inductive EdgeWalk (graph : Graph τ) : (id : Nat) → (edges : List Nat) → Path τ → Prop
  | accept {id : Nat} {state : State τ} (hstate : graph[id]? = some state)
      (hkind : state.kind.isAccept = true) : EdgeWalk graph id [] [state.kind]
  | step {id edge target : Nat} {state : State τ} {edges : List Nat} {path : Path τ}
      (hstate : graph[id]? = some state) (hkind : state.kind.isAccept = false)
      (hedge : state.next[edge]? = some target) (hwalk : EdgeWalk graph target edges path) :
      EdgeWalk graph id (edge :: edges) (state.kind :: path)

theorem EdgeWalk.exists_cons {edges : List Nat} {path : Path τ} (h : EdgeWalk graph id edges path) :
    ∃ state, graph[id]? = some state ∧ path = state.kind :: List.tail path := by
  cases h with
  | accept hstate _ => exact ⟨_, hstate, rfl⟩
  | step hstate _ _ _ => exact ⟨_, hstate, rfl⟩

/-- The walks from the state `id` with at most `room` edges, each with its edges. -/
def edgeWalksFrom (graph : Graph τ) : (room id : Nat) → List (List Nat × Path τ)
  | room, id =>
    match graph[id]? with
    | none => []
    | some state =>
      if state.kind.isAccept then [([], [state.kind])]
      else match room with
        | 0 => []
        | room + 1 => state.next.toList.zipIdx.flatMap fun (target, edge) =>
          (edgeWalksFrom graph room target).map fun (edges, path) =>
            (edge :: edges, state.kind :: path)

/-- Without their edges the walks are those that the search lists. -/
theorem map_snd_edgeWalksFrom (graph : Graph τ) (room id : Nat) :
    (edgeWalksFrom graph room id).map Prod.snd = walksFrom graph room id := by
  fun_induction edgeWalksFrom graph room id with
  | case1 room id hnone => rw [walksFrom.eq_def]; simp [hnone]
  | case2 room id state hstate hkind => rw [walksFrom.eq_def]; simp [hstate, hkind]
  | case3 id state hstate hkind => rw [walksFrom.eq_def]; simp [hstate, hkind]
  | case4 id state hstate hkind room ih =>
    rw [walksFrom.eq_def]
    simp only [hstate, hkind, Bool.false_eq_true, ↓reduceIte]
    rw [List.map_flatMap]
    conv_rhs => rw [← List.zipIdx_map_fst 0 state.next.toList, List.flatMap_map]
    refine List.flatMap_congr fun next _ => ?_
    obtain ⟨target, edge⟩ := next
    rw [← ih, List.map_map, List.map_map]
    rfl

/-- What is listed is a walk along these edges. -/
theorem edgeWalk_of_mem {graph : Graph τ} {room id : Nat} {edges : List Nat} {path : Path τ}
    (h : (edges, path) ∈ edgeWalksFrom graph room id) : EdgeWalk graph id edges path := by
  fun_induction edgeWalksFrom graph room id generalizing edges path with
  | case1 => cases h
  | case2 room id state hstate hkind =>
    obtain ⟨rfl, rfl⟩ := Prod.mk.inj (List.mem_singleton.1 h)
    exact .accept hstate hkind
  | case3 => cases h
  | case4 id state hstate hkind room ih =>
    obtain ⟨⟨target, edge⟩, hedge, hmem⟩ := List.mem_flatMap.1 h
    obtain ⟨⟨rest, behind⟩, hrest, heq⟩ := List.mem_map.1 hmem
    obtain ⟨rfl, rfl⟩ := Prod.mk.inj heq
    have hget := List.mk_mem_zipIdx_iff_getElem?.1 hedge
    rw [Array.getElem?_toList] at hget
    exact .step hstate (Bool.eq_false_iff.2 hkind) hget (ih _ hrest)

/-- With room for every walk each of them is listed. -/
theorem mem_of_edgeWalk {graph : Graph τ} {room id : Nat} {edges : List Nat} {path : Path τ}
    (hroomy : Roomy graph room id) (h : EdgeWalk graph id edges path) :
    (edges, path) ∈ edgeWalksFrom graph room id := by
  induction h generalizing room with
  | accept hstate hkind => rw [edgeWalksFrom.eq_def]; simp [hstate, hkind]
  | @step id edge target state edges path hstate hkind hedge _ ih =>
    have hlead : Leads graph id target := ⟨state, hstate, hkind, Array.mem_of_getElem? hedge⟩
    obtain ⟨less, rfl, hless⟩ := hroomy.of_leads hlead
    rw [edgeWalksFrom.eq_def]
    simp only [hstate, hkind, Bool.false_eq_true, ↓reduceIte, List.mem_flatMap]
    refine ⟨(target, edge), ?_, List.mem_map_of_mem (ih hless)⟩
    rwa [List.mk_mem_zipIdx_iff_getElem?, Array.getElem?_toList]

/-- The walks are listed in the order of their edges, each once. -/
theorem pairwise_edgeWalksFrom (graph : Graph τ) (room id : Nat) :
    (edgeWalksFrom graph room id).Pairwise fun first second => first.1 < second.1 := by
  fun_induction edgeWalksFrom graph room id with
  | case1 => exact .nil
  | case2 => exact List.pairwise_singleton _ _
  | case3 => exact .nil
  | case4 id state hstate hkind room ih =>
    refine List.pairwise_flatMap.2 ⟨fun ⟨target, edge⟩ _ => ?_, ?_⟩
    · refine List.pairwise_map.2 ((ih target).imp fun hlt => ?_)
      exact List.cons_lt_cons_iff.2 (.inr ⟨rfl, hlt⟩)
    · have hplaces : state.next.toList.zipIdx.Pairwise fun first second => first.2 < second.2 := by
        rw [← List.pairwise_map, List.zipIdx_map_snd]
        exact List.pairwise_lt_range'
      refine hplaces.imp fun hlt first hfirst second hsecond => ?_
      obtain ⟨_, -, rfl⟩ := List.mem_map.1 hfirst
      obtain ⟨_, -, rfl⟩ := List.mem_map.1 hsecond
      exact List.cons_lt_cons_iff.2 (.inl hlt)

/-! ## The list of all walks -/

theorem mem_edgeWalksFrom_iff (h : Roomy graph room id) {edges : List Nat} {path : Path τ} :
    (edges, path) ∈ edgeWalksFrom graph room id ↔ EdgeWalk graph id edges path :=
  ⟨edgeWalk_of_mem, mem_of_edgeWalk h⟩

/-- There are as many walks as are listed, if each is counted by its edges. -/
theorem encard_edgeWalks (h : Roomy graph room id) :
    {edges | ∃ path, EdgeWalk graph id edges path}.encard = (walksFrom graph room id).length := by
  have hdistinct : ((edgeWalksFrom graph room id).map Prod.fst).Nodup := by
    refine List.pairwise_map.2 ((pairwise_edgeWalksFrom graph room id).imp fun hlt heq => ?_)
    rw [heq] at hlt
    exact List.lt_irrefl _ hlt
  have hset : {edges | ∃ path, EdgeWalk graph id edges path} =
      ((edgeWalksFrom graph room id).map Prod.fst).toFinset := by
    ext edges
    simp [mem_edgeWalksFrom_iff h]
  rw [hset, Set.encard_coe_eq_coe_finsetCard, List.toFinset_card_of_nodup hdistinct,
    List.length_map, ← map_snd_edgeWalksFrom, List.length_map]

theorem walks_eq_ok_iff {paths : List (Path τ)} : walks graph = .ok paths ↔
    graph[0]?.map State.kind = some .start ∧ Explorable graph 0 ∧
      (walksFrom graph graph.size 0).length ≤ maxPaths ∧
        paths = (walksFrom graph graph.size 0).map List.tail := by
  constructor
  · intro hpaths
    obtain ⟨next, result, hstate, hresult, -⟩ := walks_eq_ok hpaths
    have hstart : graph[0]?.map State.kind = some .start := by rw [hstate]; rfl
    have hroomy := roomy_of_exploreFrom hresult
    refine ⟨hstart, hroomy.explorable, ?_⟩
    rw [walks_eq_ite hstart hroomy] at hpaths
    split at hpaths
    · next hfew => exact ⟨hfew, (Except.ok.inj hpaths).symm⟩
    · cases hpaths
  · rintro ⟨hstart, hexplorable, hfew, rfl⟩
    exact (walks_eq_ite hstart (roomy_iff.2 hexplorable)).trans (if_pos hfew)

/-- The walks of a graph are listed if and only if it begins with a start state, whatever can be
come to from there is a state and on no cycle, and they are not too many. They are then listed in
the order of their edges, each once, and otherwise the search ends with an error. -/
theorem walks_outcomes (graph : Graph τ) :
    ((∃ paths, walks graph = .ok paths) ↔
      graph[0]?.map State.kind = some .start ∧ Explorable graph 0 ∧
        {edges | ∃ path, EdgeWalk graph 0 edges path}.encard ≤ maxPaths) ∧
    (∀ paths, walks graph = .ok paths → ∃ found : List (List Nat × Path τ),
      paths = found.map Prod.snd ∧ (found.Pairwise fun first second => first.1 < second.1) ∧
        ∀ edges path, (edges, path) ∈ found ↔ EdgeWalk graph 0 edges (.start :: path)) ∧
    ∀ error, walks graph = .error error →
      error = .tooManyPaths ∨ ∃ fault, error = .malformed fault := by
  refine ⟨?_, fun paths hpaths => ?_, fun error herror => ?_⟩
  · simp only [walks_eq_ok_iff, exists_and_left, exists_eq, and_true]
    refine and_congr_right fun _ => and_congr_right fun hexplorable => ?_
    rw [encard_edgeWalks (roomy_iff.2 hexplorable), Nat.cast_le]
  · obtain ⟨hstart, hexplorable, -, rfl⟩ := walks_eq_ok_iff.1 hpaths
    refine ⟨(edgeWalksFrom graph graph.size 0).map fun (edges, path) => (edges, List.tail path),
      ?_, List.pairwise_map.2 (pairwise_edgeWalksFrom graph graph.size 0), fun edges path => ?_⟩
    · rw [← map_snd_edgeWalksFrom, List.map_map, List.map_map]
      rfl
    · rw [← mem_edgeWalksFrom_iff (roomy_iff.2 hexplorable)]
      constructor
      · intro hmem
        obtain ⟨⟨edges, whole⟩, hwhole, heq⟩ := List.mem_map.1 hmem
        obtain ⟨rfl, rfl⟩ := Prod.mk.inj heq
        obtain ⟨state, hstate, hcons⟩ := (edgeWalk_of_mem hwhole).exists_cons
        rw [hstate] at hstart
        rwa [hcons, Option.some.inj hstart] at hwhole
      · intro hmem
        exact List.mem_map.2 ⟨_, hmem, rfl⟩
  · unfold walks at herror
    split at herror
    · rcases bind_eq_error_iff.1 herror with hexplore | ⟨_, -, hpure⟩
      · exact exploreFrom_eq_error hexplore
      · cases hpure
    · exact .inr ⟨_, (Except.error.inj herror).symm⟩

/-- A graph whose start state has the same edge twice. The edges of its end state and those of its
last state, which no walk comes to, lead to no state or back. -/
def forkedGraph : Graph Unit :=
  #[⟨.start, #[2, 2, 1]⟩, ⟨.accept (), #[0, 7]⟩, ⟨.fixed ['a'], #[1]⟩, ⟨.capture ['b'], #[3, 9]⟩]

theorem walks_forkedGraph :
    walks forkedGraph =
      .ok [[.fixed ['a'], .accept ()], [.fixed ['a'], .accept ()], [.accept ()]] ∧
    Explorable forkedGraph 0 := by
  have hwalks : walks forkedGraph =
      .ok [[.fixed ['a'], .accept ()], [.fixed ['a'], .accept ()], [.accept ()]] := by
    decide +kernel
  obtain ⟨hlisted, -, -⟩ := walks_outcomes forkedGraph
  exact ⟨hwalks, (hlisted.1 ⟨_, hwalks⟩).2.1⟩

end RoutePattern
