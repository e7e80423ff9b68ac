import RoutePattern.Graph.Walks
import RoutePattern.Proofs.Graph.Listing
import RoutePattern.Proofs.Node.Parse

/-!
# The priority of the paths of a pattern

A pattern declares an order for its paths: an earlier alternative comes before a later one, and
taking an optional node before leaving it out (`Node.declaredPaths`). The walks of its graph are
these paths, each once, and come in this order if the tree is orderly
(`exists_walks_perm_declaredPaths`).

A tree that is not orderly can lose the order, because the edges that skip an outer group are added
before those that skip the nodes inside it. In `((a)?b)?c` the start state gets its edge to `c`
before the one to `b` (`walks_nestedSkips`).
-/

namespace RoutePattern

open Node

/-- The paths of a tree in the declared order. A way that is declared again adds nothing. -/
def Node.declaredPaths (nodes : List Node) : List (Path Unit) :=
  (waysOfSequence nodes).eraseDups.map pathOf

/-- The walks of the graph of a pattern, unless they are too many, are the declared paths, each
once. If the tree is orderly, they come in the declared order. -/
theorem exists_walks_perm_declaredPaths {pattern : Text} {nodes : List Node}
    (h : parse pattern = .ok nodes) (hfew : (declaredPaths nodes).length ≤ maxPaths) :
    ∃ graph found, compile nodes = .ok graph ∧ walks graph = .ok found ∧
      found.Perm (declaredPaths nodes) ∧
      (orderlySequence nodes = true → found = declaredPaths nodes) := by
  obtain ⟨graph, order, hcompile, -, hperm, horderly, hwalks⟩ := (isTree_of_parse h).exists_listing
  have hroom : order.length ≤ maxPaths := by
    rw [hperm.length_eq]
    rwa [declaredPaths, List.length_map] at hfew
  rw [if_pos hroom] at hwalks
  refine ⟨graph, order.map pathOf, hcompile, hwalks, hperm.map pathOf, fun horder => ?_⟩
  rw [horderly horder, declaredPaths]

/-- The pattern `a(b|c(:d)?)?`, with an optional node at the end of an optional group. -/
def endingSkips : Text := ['a', '(', 'b', '|', 'c', '(', ':', 'd', ')', '?', ')', '?']

theorem walks_endingSkips : ∃ nodes graph, parse endingSkips = .ok nodes ∧
    compile nodes = .ok graph ∧ orderlySequence nodes = true ∧ walks graph = .ok
      [[.fixed ['a'], .fixed ['b'], .accept ()],
        [.fixed ['a'], .fixed ['c'], .capture ['d'], .accept ()],
        [.fixed ['a'], .fixed ['c'], .accept ()], [.fixed ['a'], .accept ()]] := by
  have hparse : parse endingSkips = .ok [.literal 1 ['a'], .group 2 [[.literal 3 ['b']],
      [.literal 5 ['c'], .group 6 [[.parameter 7 ['d'] false]] true]] true] := by decide +kernel
  obtain ⟨graph, found, hcompile, hwalks, -, horder⟩ :=
    exists_walks_perm_declaredPaths hparse (by decide +kernel)
  obtain rfl := horder (by decide +kernel)
  exact ⟨_, graph, hparse, hcompile, by decide +kernel, hwalks⟩

/-- The pattern `((a)?b)?c`, with an optional node at the start of an optional group. -/
def nestedSkips : Text := ['(', '(', 'a', ')', '?', 'b', ')', '?', 'c']

/-- The tree of `((a)?b)?c`. -/
def nestedSkipsTree : List Node :=
  [.group 1 [[.group 2 [[.literal 3 ['a']]] true, .literal 4 ['b']]] true, .literal 5 ['c']]

/-- The walks of `((a)?b)?c` are not in the declared order: the one that skips the outer group
comes before the one that skips the inner group only. -/
theorem walks_nestedSkips : parse nestedSkips = .ok nestedSkipsTree ∧
    declaredPaths nestedSkipsTree = [[.fixed ['a'], .fixed ['b'], .fixed ['c'], .accept ()],
      [.fixed ['b'], .fixed ['c'], .accept ()], [.fixed ['c'], .accept ()]] ∧
    (compile nestedSkipsTree >>= walks) =
      .ok [[.fixed ['a'], .fixed ['b'], .fixed ['c'], .accept ()], [.fixed ['c'], .accept ()],
        [.fixed ['b'], .fixed ['c'], .accept ()]] ∧
    (compile nestedSkipsTree >>= walks) ≠ .ok (declaredPaths nestedSkipsTree) := by
  have hwalks : (compile nestedSkipsTree >>= walks) =
      .ok [[.fixed ['a'], .fixed ['b'], .fixed ['c'], .accept ()], [.fixed ['c'], .accept ()],
        [.fixed ['b'], .fixed ['c'], .accept ()]] := by decide +kernel
  refine ⟨by decide +kernel, by decide +kernel, hwalks, ?_⟩
  rw [hwalks]
  decide +kernel

end RoutePattern
