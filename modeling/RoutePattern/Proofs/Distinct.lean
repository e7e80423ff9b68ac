import Mathlib.Data.List.Basic
import Mathlib.Data.List.Induction
import Mathlib.Data.List.Nodup

/-!
# Lists in order of first occurrence

`List.eraseDups` keeps the first occurrence of each element, so an element that is put behind a
list is new or vanishes (`eraseDups_concat`). What a second list adds to a first one comes behind
it (`pairwise_eraseDups_append`).

`lastWith?` is the other way round: of the elements with the same key it finds the last one.
-/

namespace RoutePattern

variable {α : Type} [BEq α] [LawfulBEq α]

/-- An element behind a list is new or vanishes. -/
theorem eraseDups_concat (l : List α) (a : α) :
    (l ++ [a]).eraseDups = if a ∈ l then l.eraseDups else l.eraseDups ++ [a] := by
  rw [List.eraseDups_append, List.removeAll]
  split
  · next ha => simp [ha]
  · next ha => simp [ha, List.eraseDups_cons]

/-- What is there already vanishes. -/
theorem eraseDups_concat_append {l : List α} {a : α} (h : a ∈ l) (others : List α) :
    (l ++ a :: others).eraseDups = (l ++ others).eraseDups := by
  rw [List.eraseDups_append, List.eraseDups_append]
  congr 2
  rw [List.cons_removeAll, if_neg (by simpa using h)]

theorem nodup_eraseDups (l : List α) : l.eraseDups.Nodup := by
  induction l using List.reverseRecOn with
  | nil => exact List.nodup_nil
  | append_singleton l a ih =>
    rw [eraseDups_concat]
    split
    · exact ih
    · next ha =>
      rw [List.nodup_append]
      refine ⟨ih, List.pairwise_singleton _ a, ?_⟩
      rintro b hb _ hmem rfl
      exact ha (List.mem_eraseDups.1 (List.mem_singleton.1 hmem ▸ hb))

/-- A list in which nothing comes twice stays as it is. -/
theorem eraseDups_eq_self {l : List α} (h : l.Nodup) : l.eraseDups = l := by
  induction l using List.reverseRecOn with
  | nil => rfl
  | append_singleton l a ih =>
    obtain ⟨hl, -, hne⟩ := List.nodup_append.1 h
    have ha : a ∉ l := fun ha => hne a ha a (by simp) rfl
    rw [eraseDups_concat, if_neg ha, ih hl]

/-- It does not matter whether elements are dropped before or after their repetitions. -/
theorem eraseDups_filter (p : α → Bool) (l : List α) :
    (l.filter p).eraseDups = l.eraseDups.filter p := by
  induction l using List.reverseRecOn with
  | nil => rfl
  | append_singleton l a ih =>
    rw [List.filter_append, eraseDups_concat]
    by_cases hp : p a = true
    · simp only [List.filter_cons_of_pos hp, List.filter_nil, eraseDups_concat, ih, List.mem_filter,
        hp, and_true]
      split
      · rfl
      · rw [List.filter_append, List.filter_cons_of_pos hp, List.filter_nil]
    · rw [List.filter_cons_of_neg hp, List.filter_nil, List.append_nil, ih]
      split
      · rfl
      · rw [List.filter_append, List.filter_cons_of_neg hp, List.filter_nil, List.append_nil]

/-- What a second list adds to a first one comes behind it. -/
theorem pairwise_eraseDups_append {r : α → α → Prop} {as bs : List α}
    (has : as.eraseDups.Pairwise r) (hbs : bs.eraseDups.Pairwise r)
    (hcross : ∀ a ∈ as, ∀ b ∈ bs, b ∉ as → r a b) : (as ++ bs).eraseDups.Pairwise r := by
  rw [List.eraseDups_append, List.removeAll, eraseDups_filter, List.pairwise_append]
  refine ⟨has, hbs.sublist List.filter_sublist, ?_⟩
  intro a ha b hb
  obtain ⟨hmem, hnew⟩ := List.mem_filter.1 hb
  rw [List.mem_eraseDups] at ha hmem
  exact hcross a ha b hmem (by simpa using hnew)

/-! ## The last element with a key -/

section LastWith

variable {β : Type} {key : β → Nat} {elements : List β} {value : Nat} {element : β}

/-- The last of the elements with this key. -/
def lastWith? (key : β → Nat) (elements : List β) (value : Nat) : Option β :=
  elements.reverse.find? fun element => key element == value

/-- The first element is found only if no later one has its key. -/
theorem lastWith?_cons (element : β) :
    lastWith? key (element :: elements) value =
      (lastWith? key elements value).or (if key element = value then some element else none) := by
  rw [lastWith?, List.reverse_cons, List.find?_append, lastWith?]
  by_cases h : key element = value <;> simp [h]

theorem mem_of_lastWith? (h : lastWith? key elements value = some element) :
    element ∈ elements ∧ key element = value := by
  refine ⟨List.mem_reverse.1 (List.mem_of_find?_eq_some h), ?_⟩
  simpa using List.find?_some h

theorem lastWith?_eq_none_iff :
    lastWith? key elements value = none ↔ value ∉ elements.map key := by
  simp [lastWith?]

theorem exists_lastWith? (h : element ∈ elements) :
    ∃ last, lastWith? key elements (key element) = some last := by
  refine Option.ne_none_iff_exists'.1 fun hnone => ?_
  exact lastWith?_eq_none_iff.1 hnone (List.mem_map_of_mem h)

/-- With distinct keys every element is found by its own. -/
theorem lastWith?_of_nodup (hnodup : (elements.map key).Nodup) (h : element ∈ elements) :
    lastWith? key elements (key element) = some element := by
  obtain ⟨last, hlast⟩ := exists_lastWith? h
  obtain ⟨hmem, hkey⟩ := mem_of_lastWith? hlast
  rw [hlast, List.inj_on_of_nodup_map hnodup hmem h hkey]

end LastWith

end RoutePattern
