import RoutePattern.Automaton.Matches
import RoutePattern.Proofs.Automaton.Layout
import RoutePattern.Proofs.Params
import RoutePattern.Proofs.Path.Normal

/-!
# What the search finds

`Automaton.accepted` runs the moves of a stack to their end and lists what is found on the way,
with the end states. An enumeration that searches from a stack gives just these matches
(`toList_searching`).

On the layout of a pool the moves list the cuts of the input along every path:

* `accepted_place`: a path that stands in the automaton, entered from the frame below, finds the
  cuts of what that frame has left, in order, and then the search goes on with that frame;
* `accepted_startStack`: the search from the start state goes through the paths of the pool;
* `toList_searchOf_ofNormal`: so it finds the cuts of the input along the paths, in pool order.
-/

namespace RoutePattern

variable {τ : Type}

/-- The matches of an input along one path: one for each cut. -/
def Path.matches (path : Path τ) (input : Text) : List (Match τ) :=
  match path.tag? with
  | some tag => (path.cuts input).map fun pieces => ⟨.ofCaptures (path.captured pieces), tag⟩
  | none => []

theorem Path.Ends.matches {path : Path τ} {tag : τ} (h : path.Ends tag) (input : Text) :
    path.matches input =
      (path.cuts input).map fun pieces => ⟨.ofCaptures (path.captured pieces), tag⟩ := by
  simp [Path.matches, h.tag?]

/-! ## The enumeration of a search -/

namespace Matches

theorem toList_of_next_some {found left : Matches τ} {first : Match τ}
    (h : found.next = (some first, left)) : found.toList = first :: left.toList := by
  rw [toList]
  split <;> simp_all

theorem toList_of_next_none {found left : Matches τ} (h : found.next = (none, left)) :
    found.toList = [] := by
  rw [toList]
  split <;> simp_all

theorem exists_next_of_toList_eq_nil {found : Matches τ} (h : found.toList = []) :
    ∃ left, found.next = (none, left) := by
  rcases hnext : found.next with ⟨_ | first, left⟩
  · exact ⟨left, rfl⟩
  · cases (toList_of_next_some hnext).symm.trans h

theorem exists_next_of_toList_eq_cons {found : Matches τ} {first : Match τ} {rest : List (Match τ)}
    (h : found.toList = first :: rest) :
    ∃ left, found.next = (some first, left) ∧ left.toList = rest := by
  rcases hnext : found.next with ⟨_ | other, left⟩
  · cases (toList_of_next_none hnext).symm.trans h
  · obtain ⟨rfl, rfl⟩ := List.cons_eq_cons.1 ((toList_of_next_some hnext).symm.trans h)
    exact ⟨left, rfl, rfl⟩

/-- The enumeration after that many calls. -/
def after (found : Matches τ) : (calls : Nat) → Matches τ
  | 0 => found
  | calls + 1 => (found.after calls).next.2

theorem fst_next (found : Matches τ) : found.next.1 = found.toList.head? := by
  rcases hnext : found.next with ⟨_ | first, left⟩
  · rw [toList_of_next_none hnext]
    rfl
  · rw [toList_of_next_some hnext]
    rfl

theorem toList_snd_next (found : Matches τ) : found.next.2.toList = found.toList.tail := by
  rcases hnext : found.next with ⟨_ | first, left⟩
  · rw [toList_of_next_none hnext, toList_of_next_none (next_none hnext)]
    rfl
  · rw [toList_of_next_some hnext]
    rfl

theorem toList_after (found : Matches τ) (calls : Nat) :
    (found.after calls).toList = found.toList.drop calls := by
  induction calls with
  | zero => rfl
  | succ calls ih => rw [after, toList_snd_next, ih, List.tail_drop]

/-- A call gives the match at its place, and behind the last match nothing. -/
theorem fst_next_after (found : Matches τ) (calls : Nat) :
    (found.after calls).next.1 = found.toList[calls]? := by
  rw [fst_next, toList_after, List.head?_drop]

/-- A call changes the progress only. -/
theorem exists_snd_next_eq (found : Matches τ) :
    ∃ progress, found.next.2 = found.proceed progress := by
  unfold next
  split
  · exact ⟨_, rfl⟩
  · exact ⟨_, rfl⟩
  · split <;> exact ⟨_, rfl⟩
  · split <;> exact ⟨_, rfl⟩

theorem input_snd_next (found : Matches τ) : found.next.2.input = found.input := by
  obtain ⟨progress, hprogress⟩ := found.exists_snd_next_eq
  rw [hprogress]
  rfl

theorem exists_after_eq (found : Matches τ) (calls : Nat) :
    ∃ progress, found.after calls = found.proceed progress := by
  induction calls with
  | zero => exact ⟨found.progress, rfl⟩
  | succ calls ih =>
    obtain ⟨before, hbefore⟩ := ih
    obtain ⟨progress, hprogress⟩ := (found.after calls).exists_snd_next_eq
    rw [hbefore] at hprogress
    exact ⟨progress, by rw [after, hbefore, hprogress]; rfl⟩

end Matches

namespace Automaton

/-- What the moves of a stack come to until it is empty: end states with their matches. -/
def accepted (automaton : Automaton τ) : List Frame → List (Nat × Match τ)
  | [] => []
  | top :: below =>
    (automaton.found? top below).toList.map (top.state, ·) ++
      automaton.accepted (automaton.step top below)
termination_by stack => automaton.weight stack
decreasing_by exact automaton.weight_step_lt top below

@[simp] theorem accepted_nil (automaton : Automaton τ) : automaton.accepted [] = [] := by
  rw [accepted]

theorem accepted_cons (automaton : Automaton τ) (top : Frame) (below : List Frame) :
    automaton.accepted (top :: below) =
      (automaton.found? top below).toList.map (top.state, ·) ++
        automaton.accepted (automaton.step top below) := by
  rw [accepted]

/-- The first match of a stack and those behind it. -/
theorem map_snd_accepted (automaton : Automaton τ) (stack : List Frame) :
    (automaton.accepted stack).map Prod.snd =
      match automaton.nextMatch? stack with
      | some (first, left) => first :: (automaton.accepted left).map Prod.snd
      | none => [] := by
  fun_induction nextMatch? automaton stack with
  | case1 => simp
  | case2 top below found hfound => simp [accepted_cons, hfound]
  | case3 top below hnone ih => simp [accepted_cons, hnone, ih]

/-- An enumeration that searches from a stack lists what the moves of the stack find. -/
theorem toList_searching (automaton : Automaton τ) (input : Text) (stack : List Frame) :
    (Matches.mk automaton input (.searching stack)).toList =
      (automaton.accepted stack).map Prod.snd := by
  induction h : automaton.weight stack using Nat.strongRecOn generalizing stack with
  | _ weight ih =>
    rw [map_snd_accepted]
    cases hn : automaton.nextMatch? stack with
    | none =>
      have hnext : (Matches.mk automaton input (.searching stack)).next =
          (none, ⟨automaton, input, .done⟩) := by
        simp [Matches.next, hn, Matches.proceed]
      rw [Matches.toList_of_next_none hnext]
    | some result =>
      obtain ⟨first, left⟩ := result
      have hlt := automaton.weight_nextMatch?_lt hn
      have hnext : (Matches.mk automaton input (.searching stack)).next =
          (some first, ⟨automaton, input, .searching left⟩) := by
        simp [Matches.next, hn, Matches.proceed]
      rw [Matches.toList_of_next_some hnext, ih _ (h ▸ hlt) left rfl]

/-! ## One path -/

/-- Only an end state finds something. -/
theorem found?_of_not_accept {automaton : Automaton τ} {top : Frame} {state : State τ}
    (h : automaton.states[top.state]? = some state) (hkind : state.kind.isAccept = false)
    (below : List Frame) : automaton.found? top below = none := by
  have : automaton.tag? top.state = none := by
    rw [tag?, h]
    cases hk : state.kind <;> simp_all [Kind.isAccept]
  simp [found?, this]

/-- A state with an edge left to try lets the search enter the state that the edge leads to. -/
theorem accepted_edge {automaton : Automaton τ} {top : Frame} {state : State τ} {target : Nat}
    (h : automaton.states[top.state]? = some state) (hkind : state.kind.isAccept = false)
    (hedge : state.next[top.edge]? = some target) (below : List Frame) :
    automaton.accepted (top :: below) =
      match automaton.states[target]?.bind fun next => next.kind.enter? top.rest with
      | some rest =>
        automaton.accepted (⟨target, 0, rest⟩ :: { top with edge := top.edge + 1 } :: below)
      | none => automaton.accepted ({ top with edge := top.edge + 1 } :: below) := by
  rw [accepted_cons, found?_of_not_accept h hkind]
  cases hn : automaton.states[target]?.bind fun next => next.kind.enter? top.rest <;>
    simp [step, h, hkind, hedge, hn]

/-- A state without an edge left to try takes one more character or is left. -/
theorem accepted_leave {automaton : Automaton τ} {top : Frame} {state : State τ}
    (h : automaton.states[top.state]? = some state) (hkind : state.kind.isAccept = false)
    (hedge : state.next[top.edge]? = none) (below : List Frame) :
    automaton.accepted (top :: below) =
      match state.kind.grow? top.rest with
      | some rest => automaton.accepted (⟨top.state, 0, rest⟩ :: below)
      | none => automaton.accepted below := by
  rw [accepted_cons, found?_of_not_accept h hkind]
  cases hn : state.kind.grow? top.rest <;> simp [step, h, hkind, hedge, hn]

/-- An end state has found something if the input is used up, and is left. -/
theorem accepted_accept {automaton : Automaton τ} {top : Frame} {tag : τ} {next : Array Nat}
    (h : automaton.states[top.state]? = some ⟨.accept tag, next⟩) (under : Frame)
    (below : List Frame) :
    automaton.accepted (top :: under :: below) =
      (if top.rest = [] then
        [(top.state, ⟨.ofCaptures (automaton.captures (under :: below)), tag⟩)] else []) ++
      automaton.accepted (under :: below) := by
  have htag : automaton.tag? top.state = some tag := by simp [tag?, h]
  have hcaptures : automaton.captures (top :: under :: below) =
      automaton.captures (under :: below) := by
    simp [captures, h]
  rw [accepted_cons, found?, htag, hcaptures]
  simp only [step, h, Kind.isAccept, ↓reduceIte, List.isEmpty_iff]
  split <;> simp

/-- The matches of a path that stands from `first` on and is entered with `captures` already
made: each with the end state of the path. -/
def placed (first : Nat) (path : Path τ) (tag : τ) (captures : List (Text × Text)) (input : Text) :
    List (Nat × Match τ) :=
  (path.cuts input).map fun pieces =>
    (first + path.length - 1, ⟨.ofCaptures (captures ++ path.captured pieces), tag⟩)

/-- The top of a stack adds what it holds to the captures below it. -/
theorem captures_cons_cons {automaton : Automaton τ} {top : Frame} {state : State τ}
    (h : automaton.states[top.state]? = some state) (under : Frame) (below : List Frame) :
    automaton.captures (top :: under :: below) =
      automaton.captures (under :: below) ++
        (state.kind.captured? (under.rest.before top.rest)).toList := by
  rw [captures, h]
  cases hk : state.kind <;> simp [Kind.captured?, hk]

theorem placed_start (first : Nat) (path : Path τ) (tag : τ) (captures : List (Text × Text))
    (input : Text) :
    placed first (.start :: path) tag captures input =
      placed (first + 1) path tag captures input := by
  simp [placed, Path.cuts]

theorem placed_fixed (first : Nat) (text : Text) (path : Path τ) (tag : τ)
    (captures : List (Text × Text)) (input : Text) :
    placed first (.fixed text :: path) tag captures input =
      match text.isPrefixOf? input with
      | some left => placed (first + 1) path tag captures left
      | none => [] := by
  cases h : text.isPrefixOf? input <;> simp [placed, Path.cuts, h, Function.comp_def]

/-- A capture in front tries each of its values. -/
theorem placed_capture (first : Nat) (name : Text) (path : Path τ) (tag : τ)
    (captures : List (Text × Text)) (input : Text) :
    placed first (.capture name :: path) tag captures input =
      (Path.values name input).flatMap fun (value, left) =>
        placed (first + 1) path tag (captures ++ [(name, value)]) left := by
  simp [placed, Path.cuts, List.map_flatMap, Function.comp_def]

section Place

variable {automaton : Automaton τ} {first : Nat} {kind : Kind τ} {path : Path τ} {tag : τ}

/-- What a path finds that is entered from the frame `under`, if its first state can be entered:
the cuts of what `under` has left. Then the search goes on with `under`. -/
def EntersAs (automaton : Automaton τ) (first : Nat) (path : Path τ) (tag : τ) : Prop :=
  ∀ (under : Frame) (below : List Frame),
    (match automaton.states[first]?.bind fun state => state.kind.enter? under.rest with
      | some rest => automaton.accepted (⟨first, 0, rest⟩ :: under :: below)
      | none => automaton.accepted (under :: below)) =
      placed first path tag (automaton.captures (under :: below)) under.rest ++
        automaton.accepted (under :: below)

/-- A state that has been entered finds what the path behind it finds. Then it takes one more
character or is left. -/
theorem accepted_visit (hkind : kind.isAccept = false)
    (hstate : automaton.states[first]? = some ⟨kind, #[first + 1]⟩)
    (hpath : EntersAs automaton (first + 1) path tag) (rest : Text) (under : Frame)
    (below : List Frame) :
    automaton.accepted (⟨first, 0, rest⟩ :: under :: below) =
      placed (first + 1) path tag (automaton.captures (under :: below) ++
        (kind.captured? (under.rest.before rest)).toList) rest ++
      match kind.grow? rest with
      | some longer => automaton.accepted (⟨first, 0, longer⟩ :: under :: below)
      | none => automaton.accepted (under :: below) := by
  have hedge : (#[first + 1] : Array Nat)[0]? = some (first + 1) := rfl
  rw [accepted_edge hstate hkind hedge]
  -- The path behind the state is entered as a whole, and then the search comes back to the state
  -- with no edge left.
  refine (hpath ⟨first, 1, rest⟩ (under :: below)).trans ?_
  rw [captures_cons_cons hstate, accepted_leave hstate hkind (by simp)]

/-- A capture that holds `value` finds what the path behind it finds for `value` and for every
value that goes on from it. -/
theorem accepted_grow {name : Text}
    (hstate : automaton.states[first]? = some ⟨.capture name, #[first + 1]⟩)
    (hpath : EntersAs automaton (first + 1) path tag) {value rest : Text} {under : Frame}
    (hunder : under.rest = value ++ rest) (below : List Frame) :
    automaton.accepted (⟨first, 0, rest⟩ :: under :: below) =
      (((value, rest) ::
        (Path.values name rest).map fun (more, left) => (value ++ more, left)).flatMap
        fun (value, left) => placed (first + 1) path tag
          (automaton.captures (under :: below) ++ [(name, value)]) left) ++
      automaton.accepted (under :: below) := by
  induction rest generalizing value with
  | nil =>
    rw [accepted_visit rfl hstate hpath, hunder, Text.before_append]
    simp [Kind.captured?, Kind.grow?, takeChar?, Path.values]
  | cons c rest ih =>
    rw [accepted_visit rfl hstate hpath, hunder, Text.before_append]
    simp only [Kind.captured?, Kind.grow?, takeChar?, Path.values, Option.toList_some]
    by_cases hslash : c = '/' ∧ name ≠ remainderName
    · simp [hslash]
    · simp only [hslash, ↓reduceIte]
      -- The capture holds one more character and goes on with what is left.
      rw [@ih (value ++ [c]) (by simp [hunder])]
      simp [List.flatMap_map, List.append_assoc]

/-- A path that stands in the automaton is entered as a whole. -/
theorem accepted_place (hends : path.Ends tag)
    (hplaced : Path.PlacedAt automaton.states first path) :
    EntersAs automaton first path tag := by
  induction hends generalizing first with
  | last tag =>
    intro under below
    have hstate : automaton.states[first]? = some ⟨.accept tag, #[]⟩ := by
      simpa [Kind.isAccept] using hplaced.1
    simp only [hstate, Option.bind_some, Kind.enter?]
    rw [accepted_accept hstate]
    by_cases h : under.rest = [] <;> simp [placed, Path.cuts, h]
  | @cons kind path tag hkind _ ih =>
    intro under below
    have hstate : automaton.states[first]? = some ⟨kind, #[first + 1]⟩ := by
      simpa [hkind] using hplaced.1
    have hpath := ih hplaced.2
    simp only [hstate, Option.bind_some]
    cases kind with
    | accept tag => simp [Kind.isAccept] at hkind
    | start =>
      simp only [Kind.enter?]
      rw [accepted_visit rfl hstate hpath, placed_start]
      simp [Kind.captured?, Kind.grow?]
    | fixed text =>
      rw [placed_fixed]
      simp only [Kind.enter?]
      cases text.isPrefixOf? under.rest with
      | none => simp
      | some left =>
        simp only
        rw [accepted_visit rfl hstate hpath]
        simp [Kind.captured?, Kind.grow?]
    | capture name =>
      rw [placed_capture]
      simp only [Kind.enter?]
      cases hrest : under.rest with
      | nil => simp [takeChar?, Path.values]
      | cons c rest =>
        simp only [takeChar?, Path.values]
        by_cases hslash : c = '/' ∧ name ≠ remainderName
        · simp [hslash]
        · simp only [hslash, ↓reduceIte]
          have hvalue : under.rest = [c] ++ rest := hrest
          exact accepted_grow hstate hpath hvalue below

end Place

/-! ## The whole pool -/

/-- The search from the start state goes through the paths of the pool. -/
theorem accepted_startFrame {automaton : Automaton τ} {next : Array Nat} {input : Text}
    (hstart : automaton.states[0]? = some ⟨.start, next⟩) {edge first : Nat}
    {paths : List (Path τ)} (hnext : next.toList.drop edge = Path.heads first paths)
    (hplaced : ∀ entry ∈ (Path.heads first paths).zip paths,
      Path.PlacedAt automaton.states entry.1 entry.2)
    (hends : ∀ path ∈ paths, ∃ tag, path.Ends tag) :
    automaton.accepted [⟨0, edge, input⟩] =
      ((Path.heads first paths).zip paths).flatMap fun (head, path) =>
        (path.matches input).map (head + path.length - 1, ·) := by
  induction paths generalizing edge first with
  | nil =>
    have hedge : next[edge]? = none := by
      rw [← Array.getElem?_toList]
      have := congrArg List.head? hnext
      simpa [Path.heads, List.head?_drop] using this
    rw [accepted_leave hstart rfl hedge]
    simp [Kind.grow?, Path.heads]
  | cons path paths ih =>
    rw [Path.heads] at hnext hplaced ⊢
    rw [List.zip_cons_cons, List.forall_mem_cons] at hplaced
    rw [List.forall_mem_cons] at hends
    obtain ⟨⟨tag, htag⟩, hends⟩ := hends
    have hedge : next[edge]? = some first := by
      rw [← Array.getElem?_toList]
      have := congrArg List.head? hnext
      simpa [List.head?_drop] using this
    have hdrop : next.toList.drop (edge + 1) = Path.heads (first + path.length) paths := by
      have := congrArg List.tail hnext
      simpa using this
    have hpath := accepted_place htag hplaced.1 ⟨0, edge + 1, input⟩ []
    rw [accepted_edge hstart rfl hedge]
    refine hpath.trans ?_
    rw [ih hdrop hplaced.2 hends, List.zip_cons_cons, List.flatMap_cons]
    simp [placed, captures, htag.matches, Function.comp_def]

/-- The search through the layout of a pool: for each path in pool order the cuts of the input,
with the end state of the path. -/
theorem accepted_startStack {paths : List (Path τ)} (hends : ∀ path ∈ paths, ∃ tag, path.Ends tag)
    (input : Text) :
    (ofNormal paths).accepted (startStack input) =
      ((Path.heads 1 paths).zip paths).flatMap fun (head, path) =>
        (path.matches input).map (head + path.length - 1, ·) := by
  have hstart : (ofNormal paths).states[0]? = some ⟨.start, (Path.heads 1 paths).toArray⟩ := rfl
  exact accepted_startFrame hstart rfl (Path.placedAt_layout paths) hends

/-- The enumeration that searches every input, whatever its length and its end. -/
def searchOf (automaton : Automaton τ) (input : Text) : Matches τ :=
  ⟨automaton, input, .searching (startStack input)⟩

theorem toList_searchOf (automaton : Automaton τ) (input : Text) :
    (automaton.searchOf input).toList = (automaton.accepted (startStack input)).map Prod.snd :=
  automaton.toList_searching input (startStack input)

theorem map_snd_zip_heads {β : Type} (first : Nat) (paths : List (Path τ))
    (f : Path τ → List β) (g : Nat × Path τ → Nat) :
    ((((Path.heads first paths).zip paths).flatMap fun entry =>
      (f entry.2).map (g entry, ·)).map Prod.snd) = paths.flatMap f := by
  induction paths generalizing first with
  | nil => simp [Path.heads]
  | cons path paths ih => simp [Path.heads, ih, Function.comp_def]

/-- The search finds the cuts of the input along the paths of the pool. -/
theorem toList_searchOf_ofNormal {paths : List (Path τ)}
    (hends : ∀ path ∈ paths, ∃ tag, path.Ends tag) (input : Text) :
    ((ofNormal paths).searchOf input).toList = paths.flatMap fun path => path.matches input := by
  rw [toList_searchOf, accepted_startStack hends]
  exact map_snd_zip_heads 1 paths (fun path => path.matches input)
    fun entry => entry.1 + entry.2.length - 1

end Automaton

end RoutePattern
