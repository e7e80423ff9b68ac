import RoutePattern.Automaton.Basic
import RoutePattern.Proofs.Except
import RoutePattern.Proofs.Path.Ends

/-!
# Where the paths of a pool stand

`Path.layout` puts the paths of a pool one after the other. `Path.PlacedAt` says that a path stands
in a graph from some id on, each state linked to the next, and `placedAt_layout` that every path
of the pool does, from its head on. `Automaton.ofPaths` succeeds exactly on pools whose paths end
in their only end state and have no touching captures, all in normal form (`ofPaths_eq_ok_iff`).
-/

namespace RoutePattern

variable {τ : Type}

namespace Path

/-! ## Places -/

/-- The states of the path stand in the graph from the id `first` on, each linked to the next. -/
def PlacedAt (graph : Graph τ) : (first : Nat) → Path τ → Prop
  | _, [] => True
  | first, kind :: rest =>
    graph[first]? = some ⟨kind, if kind.isAccept then #[] else #[first + 1]⟩ ∧
      PlacedAt graph (first + 1) rest

/-- A state of a path that stands in a graph is found there by its place in the path. -/
theorem PlacedAt.getElem? {graph : Graph τ} {first place : Nat} {path : Path τ} {kind : Kind τ}
    (h : PlacedAt graph first path) (hkind : path[place]? = some kind) :
    graph[first + place]? =
      some ⟨kind, if kind.isAccept then #[] else #[first + place + 1]⟩ := by
  induction path generalizing first place with
  | nil => cases hkind
  | cons other rest ih =>
    cases place with
    | zero =>
      obtain rfl := Option.some.inj hkind
      exact h.1
    | succ place =>
      have hrest := ih h.2 hkind
      rwa [Nat.add_right_comm, Nat.add_assoc] at hrest

theorem length_heads (first : Nat) (paths : List (Path τ)) :
    (heads first paths).length = paths.length := by
  induction paths generalizing first with
  | nil => rfl
  | cons path paths ih => rw [heads, List.length_cons, List.length_cons, ih]

/-- At every head stands a path. -/
theorem exists_mem_zip_heads {first head : Nat} {paths : List (Path τ)}
    (h : head ∈ heads first paths) : ∃ path, (head, path) ∈ (heads first paths).zip paths := by
  have hheads : ((heads first paths).zip paths).map Prod.fst = heads first paths :=
    List.map_fst_zip (Nat.le_of_eq (length_heads first paths))
  rw [← hheads] at h
  obtain ⟨⟨_, path⟩, hentry, rfl⟩ := List.mem_map.1 h
  exact ⟨path, hentry⟩

theorem placedAt_of_toList {graph : Graph τ} {lead others : List (State τ)} {path : Path τ}
    (h : graph.toList = lead ++ (chain lead.length path ++ others)) :
    PlacedAt graph lead.length path := by
  induction path generalizing lead with
  | nil => trivial
  | cons kind path ih =>
    rw [chain] at h
    refine ⟨?_, ?_⟩
    · rw [← Array.getElem?_toList, h]
      simp
    · have := @ih (lead ++ [⟨kind, if kind.isAccept then #[] else #[lead.length + 1]⟩])
        (by simpa using h)
      simpa using this

theorem placedAt_of_chains {graph : Graph τ} {lead : List (State τ)} {paths : List (Path τ)}
    (h : graph.toList = lead ++ chains lead.length paths) :
    ∀ entry ∈ (heads lead.length paths).zip paths, PlacedAt graph entry.1 entry.2 := by
  induction paths generalizing lead with
  | nil => simp [heads]
  | cons path paths ih =>
    rw [chains] at h
    have hlength := length_chain lead.length path
    have hrest := @ih (lead ++ chain lead.length path) (by simpa [hlength] using h)
    simp only [heads, List.zip_cons_cons, List.forall_mem_cons]
    exact ⟨placedAt_of_toList h, by simpa [hlength] using hrest⟩

/-- Every path of a pool stands in its layout from its head on. -/
theorem placedAt_layout (paths : List (Path τ)) :
    ∀ entry ∈ (heads 1 paths).zip paths, PlacedAt (layout paths) entry.1 entry.2 := by
  have hlayout : (layout paths).toList = [⟨.start, (heads 1 paths).toArray⟩] ++ chains 1 paths :=
    rfl
  exact placedAt_of_chains hlayout

end Path

/-! ## Pools that make an automaton -/

namespace Automaton

theorem prepare_eq_ok_iff {path ready : Path τ} :
    prepare path = .ok ready ↔
      ready = path.normal ∧ path.normal.check = .ok () ∧ ∃ tag, path.normal.Ends tag := by
  rw [← Path.endsOnce_iff]
  simp only [prepare, bind, Except.bind]
  cases hcheck : path.normal.check with
  | error e => simp
  | ok u =>
    cases hends : path.normal.endsOnce with
    | true => simp [pure, Except.pure, eq_comm]
    | false => simp [throw, throwThe, MonadExceptOf.throw]

/-- A pool makes an automaton exactly if the normal form of every path has text between its
captures and ends in its only end state; the automaton is that of the normal forms. -/
theorem ofPaths_eq_ok_iff {paths : List (Path τ)} {automaton : Automaton τ} :
    ofPaths paths = .ok automaton ↔
      automaton = ofNormal (paths.map Path.normal) ∧
        ∀ path ∈ paths.map Path.normal, path.check = .ok () ∧ ∃ tag, path.Ends tag := by
  have hmap {ready : List (Path τ)} : paths.mapM prepare = .ok ready ↔
      ready = paths.map Path.normal ∧
        ∀ path ∈ paths, path.normal.check = .ok () ∧ ∃ tag, path.normal.Ends tag :=
    mapM_eq_ok_map_iff fun _ _ => prepare_eq_ok_iff
  simp only [ofPaths, bind_eq_ok_iff, pure_eq_ok_iff, hmap, List.forall_mem_map]
  constructor
  · rintro ⟨_, ⟨rfl, hpaths⟩, rfl⟩
    exact ⟨rfl, hpaths⟩
  · rintro ⟨rfl, hpaths⟩
    exact ⟨_, ⟨rfl, hpaths⟩, rfl⟩

/-- The paths of a pool that makes an automaton end in their only end state. -/
theorem ends_of_ofPaths {paths : List (Path τ)} {automaton : Automaton τ}
    (h : ofPaths paths = .ok automaton) : ∀ path ∈ paths.map Path.normal, ∃ tag, path.Ends tag :=
  fun path hpath => ((ofPaths_eq_ok_iff.1 h).2 path hpath).2

end Automaton

end RoutePattern
