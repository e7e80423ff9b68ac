import RoutePattern.Proofs.Graph.Exploration

/-!
# The walks of an automaton

A path that stands in a graph has one walk from its head on (`walksFrom_of_placedAt`), so the walks
of a layout are the paths of its pool, in pool order and each as often as it is there
(`walks_layout`). Normal paths make the same automaton as the paths that they come from: laid out
again, what an automaton lists gives the automaton (`walks_ofPaths`).
-/

namespace RoutePattern

variable {τ : Type}

namespace Path

/-! ## The walk along a path -/

/-- From the head of a path there is one walk, and it has room if the path has. -/
theorem walksFrom_of_placedAt {graph : Graph τ} {path : Path τ} {tag : τ} (hends : path.Ends tag)
    {room first : Nat} (hplaced : PlacedAt graph first path) (hroom : path.length ≤ room + 1) :
    Roomy graph room first ∧ walksFrom graph room first = [path] := by
  induction hends generalizing room first with
  | last tag =>
    rw [Roomy.eq_def, walksFrom.eq_def]
    simp [hplaced.1, Kind.isAccept]
  | @cons kind path tag hkind hends ih =>
    obtain ⟨hstate, hrest⟩ := hplaced
    have hpos := hends.length_pos
    rw [List.length_cons] at hroom
    obtain ⟨less, rfl⟩ : ∃ less, room = less + 1 := ⟨room - 1, by omega⟩
    obtain ⟨hroomy, hwalks⟩ := ih hrest (Nat.le_of_succ_le_succ hroom)
    rw [Roomy.eq_def, walksFrom.eq_def]
    simp [hstate, hkind, hroomy, hwalks]

/-! ## The walks through a pool -/

theorem length_le_length_chains {first : Nat} {paths : List (Path τ)} {path : Path τ}
    (h : path ∈ paths) : path.length ≤ (chains first paths).length := by
  induction paths generalizing first with
  | nil => cases h
  | cons other paths ih =>
    rw [chains, List.length_append, length_chain]
    rcases List.mem_cons.1 h with rfl | hmem
    · exact Nat.le_add_right _ _
    · exact Nat.le_trans (ih hmem) (Nat.le_add_left _ _)

/-- The start state of a layout has an edge to the head of each path, and each path has room. -/
theorem walksFrom_layout {paths : List (Path τ)} (hends : ∀ path ∈ paths, ∃ tag, path.Ends tag) :
    Roomy (layout paths) (layout paths).size 0 ∧
      walksFrom (layout paths) (layout paths).size 0 = paths.map (.start :: ·) := by
  have hsize : (layout paths).size = (chains 1 paths).length + 1 := by simp [layout]
  have hstart : (layout paths)[0]? = some ⟨.start, (heads 1 paths).toArray⟩ := rfl
  have hentry : ∀ entry ∈ (heads 1 paths).zip paths,
      Roomy (layout paths) (chains 1 paths).length entry.1 ∧
        walksFrom (layout paths) (chains 1 paths).length entry.1 = [entry.2] := by
    intro entry hentry
    have hpath := (List.of_mem_zip hentry).2
    obtain ⟨tag, htag⟩ := hends _ hpath
    exact walksFrom_of_placedAt htag (placedAt_layout paths _ hentry)
      (Nat.le_succ_of_le (length_le_length_chains hpath))
  have hheads : ((heads 1 paths).zip paths).map Prod.fst = heads 1 paths :=
    List.map_fst_zip (Nat.le_of_eq (length_heads 1 paths))
  have hpaths : ((heads 1 paths).zip paths).map Prod.snd = paths :=
    List.map_snd_zip (Nat.le_of_eq (length_heads 1 paths).symm)
  rw [hsize]
  constructor
  · rw [Roomy.eq_def]
    simp only [hstart, List.mem_toArray]
    rw [← hheads]
    exact .inr (List.forall_mem_map.2 fun entry hmem => (hentry entry hmem).1)
  · rw [walksFrom.eq_def]
    simp only [hstart, Kind.isAccept, Bool.false_eq_true, ↓reduceIte]
    rw [← hheads, List.flatMap_map]
    conv_rhs => rw [← hpaths, List.map_map, List.map_eq_flatMap]
    refine List.flatMap_congr fun entry hmem => ?_
    rw [(hentry entry hmem).2]
    rfl

/-- The walks of a layout are the paths of its pool, unless they are too many. -/
theorem walks_layout {paths : List (Path τ)} (hends : ∀ path ∈ paths, ∃ tag, path.Ends tag) :
    walks (layout paths) =
      if paths.length ≤ maxPaths then .ok paths else .error .tooManyPaths := by
  obtain ⟨hroomy, hwalks⟩ := walksFrom_layout hends
  rw [walks_eq_ite rfl hroomy, hwalks, List.length_map, List.map_map]
  congr 2
  exact List.map_id paths

end Path

namespace Automaton

/-- The pool of normal paths makes the same automaton. -/
theorem ofPaths_normal {paths : List (Path τ)} {automaton : Automaton τ}
    (h : ofPaths paths = .ok automaton) : ofPaths (paths.map Path.normal) = .ok automaton := by
  obtain ⟨hautomaton, hpaths⟩ := ofPaths_eq_ok_iff.1 h
  have hnormal : (paths.map Path.normal).map Path.normal = paths.map Path.normal := by
    rw [List.map_map]
    exact List.map_congr_left fun path _ => path.normal_normal
  exact ofPaths_eq_ok_iff.2 (hnormal.symm ▸ ⟨hautomaton, hpaths⟩)

/-- What the automaton of a pool lists are the normal forms of the paths, in pool order and each as
often as it is there, and laid out again they make the automaton itself. -/
theorem walks_ofPaths {paths : List (Path τ)} {automaton : Automaton τ}
    (h : ofPaths paths = .ok automaton) (hfew : paths.length ≤ maxPaths) :
    ∃ listed, walks automaton.states = .ok listed ∧ listed = paths.map Path.normal ∧
      ofPaths listed = .ok automaton := by
  refine ⟨paths.map Path.normal, ?_, rfl, ofPaths_normal h⟩
  have hlayout := Path.walks_layout (ends_of_ofPaths h)
  rw [List.length_map, if_pos hfew] at hlayout
  rw [(ofPaths_eq_ok_iff.1 h).1]
  exact hlayout

/-- A pool with a path of a lone end state and with the same path twice, which has an empty literal
and a start state before two literals. -/
def mixedPool : List (Path Nat) :=
  [[.accept 7], [.fixed [], .start, .fixed ['a'], .fixed ['b'], .accept 1],
    [.fixed [], .start, .fixed ['a'], .fixed ['b'], .accept 1], [.capture ['n'], .accept 7]]

theorem walks_mixedPool : ∃ automaton, ofPaths mixedPool = .ok automaton ∧
    walks automaton.states = .ok [[.accept 7], [.start, .fixed ['a', 'b'], .accept 1],
      [.start, .fixed ['a', 'b'], .accept 1], [.capture ['n'], .accept 7]] ∧
    ofPaths [[.accept 7], [.start, .fixed ['a', 'b'], .accept 1],
      [.start, .fixed ['a', 'b'], .accept 1], [.capture ['n'], .accept 7]] = .ok automaton := by
  have hpool : ofPaths mixedPool = .ok (ofNormal (mixedPool.map Path.normal)) := by rfl
  obtain ⟨listed, hwalks, rfl, hagain⟩ := walks_ofPaths hpool (by decide)
  exact ⟨_, hpool, hwalks, hagain⟩

end Automaton

end RoutePattern
