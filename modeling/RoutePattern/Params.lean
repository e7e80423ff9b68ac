import RoutePattern.Text.Basic

/-!
# Captured parameters

A set of parameters gives a text to some names. It is kept in ascending order of the names, so two
sets that give the same text to the same names are equal.
-/

namespace RoutePattern

/-- Texts by name. -/
structure Params where
  /-- The names with their texts. -/
  entries : List (Text × Text)
  /-- The names ascend, so none comes twice. -/
  ascending : entries.Pairwise fun a b => a.1 < b.1
deriving DecidableEq

namespace Params

/-- No names. -/
def empty : Params := ⟨[], .nil⟩

/-- `name` with `value` in its place among ascending names, in place of an entry of that name. -/
def put (name value : Text) : List (Text × Text) → List (Text × Text)
  | [] => [(name, value)]
  | (other, text) :: rest =>
    if name < other then (name, value) :: (other, text) :: rest
    else if name = other then (name, value) :: rest
    else (other, text) :: put name value rest

theorem mem_put {name value : Text} {entries : List (Text × Text)} {entry : Text × Text}
    (h : entry ∈ put name value entries) : entry = (name, value) ∨ entry ∈ entries := by
  induction entries with
  | nil => simpa [put] using h
  | cons first rest ih =>
    rw [put] at h
    split at h
    · simpa using h
    · split at h
      · rcases List.mem_cons.1 h with h | h
        · exact .inl h
        · exact .inr (List.mem_cons_of_mem _ h)
      · rcases List.mem_cons.1 h with h | h
        · exact .inr (h ▸ List.mem_cons_self)
        · exact (ih h).imp_right (List.mem_cons_of_mem _)

theorem pairwise_put (name value : Text) {entries : List (Text × Text)}
    (h : entries.Pairwise fun a b => a.1 < b.1) :
    (put name value entries).Pairwise fun a b => a.1 < b.1 := by
  induction entries with
  | nil => simp [put]
  | cons first rest ih =>
    rw [List.pairwise_cons] at h
    rw [put]
    split
    · next hlt =>
      refine List.pairwise_cons.2 ⟨fun entry hentry => ?_, List.pairwise_cons.2 h⟩
      rcases List.mem_cons.1 hentry with rfl | hentry
      · exact hlt
      · exact List.lt_trans hlt (h.1 entry hentry)
    · split
      · next heq =>
        exact List.pairwise_cons.2 ⟨fun entry hentry => heq ▸ h.1 entry hentry, h.2⟩
      · next hlt hne =>
        refine List.pairwise_cons.2 ⟨fun entry hentry => ?_, ih h.2⟩
        rcases mem_put hentry with rfl | hentry
        · exact Std.lt_of_le_of_ne (Std.not_lt.1 hlt) (Ne.symm hne)
        · exact h.1 entry hentry

/-- `name` has the text `value`, whatever it had before. -/
def insert (params : Params) (name value : Text) : Params :=
  ⟨put name value params.entries, pairwise_put name value params.ascending⟩

/-- `name` has no text. -/
def erase (params : Params) (name : Text) : Params :=
  ⟨params.entries.filter fun entry => entry.1 != name, params.ascending.filter _⟩

/-- The text of `name`. -/
def get? (params : Params) (name : Text) : Option Text :=
  (params.entries.find? fun entry => entry.1 == name).map Prod.snd

@[simp] theorem get?_empty (name : Text) : empty.get? name = none := rfl

theorem find?_put (name value other : Text) (entries : List (Text × Text)) :
    ((put name value entries).find? fun entry => entry.1 == other).map Prod.snd =
      if other = name then some value
      else (entries.find? fun entry => entry.1 == other).map Prod.snd := by
  induction entries with
  | nil =>
    by_cases h : other = name
    · simp [put, h]
    · simp [put, h, Ne.symm h]
  | cons first rest ih =>
    rw [put]
    split
    · by_cases h : other = name
      · simp [h]
      · simp [h, Ne.symm h]
    · split
      · next hlt heq =>
        by_cases h : other = name
        · simp [h]
        · have hf : ¬first.1 = other := fun hf => h (heq.trans hf).symm
          simp [h, hf, Ne.symm h]
      · next hlt hne =>
        by_cases hf : first.1 = other
        · have : other ≠ name := fun h => hne (h ▸ hf.symm)
          simp [hf, this]
        · simpa [List.find?_cons, hf] using ih

/-- A name has the text that was inserted last. -/
theorem get?_insert (params : Params) (name value other : Text) :
    (params.insert name value).get? other =
      if other = name then some value else params.get? other :=
  find?_put name value other params.entries

/-- An erased name has no text, and the others keep theirs. -/
theorem get?_erase (params : Params) (name other : Text) :
    (params.erase name).get? other = if other = name then none else params.get? other := by
  simp only [get?, erase, List.find?_filter]
  split
  · next h =>
    subst h
    simp
  · next h =>
    congr 2
    funext entry
    by_cases he : entry.1 = other
    · simp [he, h]
    · simp [he]

/-- The names get their texts one after the other, so the last text of a name counts. -/
def insertAll (params : Params) (captures : List (Text × Text)) : Params :=
  captures.foldl (fun params (name, value) => params.insert name value) params

/-- The parameters of a list of captures, the last one of a name. -/
def ofCaptures (captures : List (Text × Text)) : Params := empty.insertAll captures

/-- The texts of `inner`, and those of `params` for all other names. -/
def override (params inner : Params) : Params := params.insertAll inner.entries

end Params

end RoutePattern
