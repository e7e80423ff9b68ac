import RoutePattern.Params

/-!
# What a list of captures records

A set of parameters is determined by what it gives to each name (`Params.ext_get?`), and the
parameters of a list of captures give to each name the value captured last under it
(`get?_ofCaptures`). So `Params.Records`, which speaks of look-ups only, fixes the parameters of a
list of captures (`records_iff`).
-/

namespace RoutePattern

/-- The value captured last under `name`. -/
def lastValue? (captures : List (Text × Text)) (name : Text) : Option Text :=
  (captures.reverse.find? fun capture => capture.1 == name).map Prod.snd

theorem lastValue?_cons (capture : Text × Text) (captures : List (Text × Text)) (name : Text) :
    lastValue? (capture :: captures) name =
      (lastValue? captures name).or (if name = capture.1 then some capture.2 else none) := by
  simp only [lastValue?, List.reverse_cons, List.find?_append, Option.map_or]
  by_cases h : name = capture.1
  · simp [h]
  · simp [h, Ne.symm h]

theorem lastValue?_eq_none_iff {captures : List (Text × Text)} {name : Text} :
    lastValue? captures name = none ↔ name ∉ captures.map Prod.fst := by
  induction captures with
  | nil => simp [lastValue?]
  | cons capture captures ih =>
    rw [lastValue?_cons, Option.or_eq_none_iff, ih, List.map_cons, List.mem_cons, not_or, and_comm]
    refine and_congr_left fun _ => ?_
    split
    · next h => simp [h]
    · next h => simp [h]

theorem lastValue?_concat (captures : List (Text × Text)) (capture : Text × Text) (name : Text) :
    lastValue? (captures ++ [capture]) name =
      if name = capture.1 then some capture.2 else lastValue? captures name := by
  simp only [lastValue?, List.reverse_append, List.reverse_singleton, List.singleton_append,
    List.find?_cons]
  by_cases h : name = capture.1
  · simp [h]
  · simp [h, beq_eq_false_iff_ne.2 (Ne.symm h)]

namespace Params

/-- `params` holds, for every name captured, the value captured last under it, and nothing else. -/
def Records (params : Params) (captures : List (Text × Text)) : Prop :=
  ∀ name, params.get? name = lastValue? captures name

theorem get?_insertAll (params : Params) (captures : List (Text × Text)) (name : Text) :
    (params.insertAll captures).get? name = (lastValue? captures name).or (params.get? name) := by
  induction captures generalizing params with
  | nil => simp [insertAll, lastValue?]
  | cons capture captures ih =>
    have hstep : params.insertAll (capture :: captures) =
        (params.insert capture.1 capture.2).insertAll captures := rfl
    rw [hstep, ih, get?_insert, lastValue?_cons, Option.or_assoc]
    split <;> simp

theorem get?_ofCaptures (captures : List (Text × Text)) (name : Text) :
    (ofCaptures captures).get? name = lastValue? captures name := by
  rw [ofCaptures, get?_insertAll, get?_empty, Option.or_none]

/-! ## Look-ups determine the parameters -/

/-- Behind a first name that is greater, a name is not found. -/
theorem find?_eq_none_of_lt {name : Text} {entries : List (Text × Text)}
    (h : ∀ entry ∈ entries, name < entry.1) :
    entries.find? (fun entry => entry.1 == name) = none := by
  apply List.find?_eq_none.2
  intro entry hentry he
  have := h entry hentry
  rw [beq_iff_eq.1 he] at this
  exact List.lt_irrefl _ this

/-- Ascending entries with the same look-ups are the same. -/
theorem entries_eq_of_find? {left right : List (Text × Text)}
    (hl : left.Pairwise fun a b => a.1 < b.1) (hr : right.Pairwise fun a b => a.1 < b.1)
    (h : ∀ name, (left.find? fun entry => entry.1 == name).map Prod.snd =
      (right.find? fun entry => entry.1 == name).map Prod.snd) : left = right := by
  induction left generalizing right with
  | nil =>
    cases right with
    | nil => rfl
    | cons entry right => simpa using h entry.1
  | cons first left ih =>
    cases right with
    | nil => simpa using h first.1
    | cons other right =>
      rw [List.pairwise_cons] at hl hr
      have hfirst := h first.1
      have hother := h other.1
      by_cases hn : first.1 = other.1
      · have hv : first = other := Prod.ext hn (by simpa [hn] using hfirst)
        subst hv
        congr 1
        apply ih hl.2 hr.2
        intro name
        by_cases hname : first.1 = name
        · subst hname
          rw [find?_eq_none_of_lt hl.1, find?_eq_none_of_lt hr.1]
        · simpa [List.find?_cons, hname] using h name
      · -- The smaller of the two first names is found on one side only.
        exfalso
        rcases Std.lt_trichotomy first.1 other.1 with hlt | heq | hlt
        · have hlater : ∀ entry ∈ other :: right, first.1 < entry.1 :=
            List.forall_mem_cons.2 ⟨hlt, fun entry he => List.lt_trans hlt (hr.1 entry he)⟩
          have hnone := find?_eq_none_of_lt hlater
          rw [hnone] at hfirst
          simp at hfirst
        · exact hn heq
        · have hlater : ∀ entry ∈ first :: left, other.1 < entry.1 :=
            List.forall_mem_cons.2 ⟨hlt, fun entry he => List.lt_trans hlt (hl.1 entry he)⟩
          have hnone := find?_eq_none_of_lt hlater
          rw [hnone] at hother
          simp at hother

theorem ext_get? {left right : Params} (h : ∀ name, left.get? name = right.get? name) :
    left = right := by
  cases left with
  | mk leftEntries hl =>
    cases right with
    | mk rightEntries hr =>
      have := entries_eq_of_find? hl hr h
      subst this
      rfl

/-- The only parameters that record a list of captures are those made of it. -/
theorem records_iff {params : Params} {captures : List (Text × Text)} :
    params.Records captures ↔ params = ofCaptures captures := by
  constructor
  · intro h
    apply ext_get?
    intro name
    rw [h name, get?_ofCaptures]
  · rintro rfl name
    exact get?_ofCaptures captures name

/-! ## Overriding and erasing -/

/-- Parameters record themselves. -/
theorem records_entries (params : Params) : params.Records params.entries := by
  obtain ⟨entries, hascending⟩ := params
  induction entries with
  | nil => exact fun _ => rfl
  | cons entry entries ih =>
    intro name
    obtain ⟨hfirst, hrest⟩ := List.pairwise_cons.1 hascending
    have hown : (entries.find? fun other => other.1 == name).map Prod.snd =
        lastValue? entries name := ih hrest name
    rw [lastValue?_cons, ← hown, get?, List.find?_cons]
    by_cases hname : name = entry.1
    · subst hname
      simp [find?_eq_none_of_lt hfirst]
    · simp [hname, beq_eq_false_iff_ne.2 (Ne.symm hname)]

theorem get?_override (params inner : Params) (name : Text) :
    (params.override inner).get? name = (inner.get? name).or (params.get? name) := by
  rw [override, get?_insertAll, ← records_entries]

/-- The parameters of an override are fixed by their look-ups. -/
theorem eq_override_iff {params outer inner : Params} :
    params = outer.override inner ↔
      ∀ name, params.get? name = (inner.get? name).or (outer.get? name) := by
  constructor
  · rintro rfl
    exact get?_override outer inner
  · intro h
    apply ext_get?
    intro name
    rw [h name, get?_override]

/-- The parameters without one name are fixed by their look-ups. -/
theorem eq_erase_iff {params whole : Params} {name : Text} :
    params = whole.erase name ↔
      ∀ other, params.get? other = if other = name then none else whole.get? other := by
  constructor
  · rintro rfl
    exact get?_erase whole name
  · intro h
    apply ext_get?
    intro other
    rw [h other, get?_erase]

theorem empty_override (params : Params) : empty.override params = params := by
  apply ext_get?
  intro name
  rw [get?_override, get?_empty, Option.or_none]

/-- A name that is not captured is not there to be erased. -/
theorem erase_ofCaptures {captures : List (Text × Text)} {name : Text}
    (h : name ∉ captures.map Prod.fst) :
    (ofCaptures captures).erase name = ofCaptures captures := by
  apply ext_get?
  intro other
  rw [get?_erase, get?_ofCaptures]
  split
  · next hother =>
    subst hother
    exact (lastValue?_eq_none_iff.2 h).symm
  · rfl

/-- What is captured last, under a name of its own, can be erased. -/
theorem erase_ofCaptures_concat {captures : List (Text × Text)} {name : Text}
    (h : name ∉ captures.map Prod.fst) (value : Text) :
    (ofCaptures (captures ++ [(name, value)])).erase name = ofCaptures captures := by
  rw [← erase_ofCaptures h]
  apply ext_get?
  intro other
  rw [get?_erase, get?_erase, get?_ofCaptures, get?_ofCaptures, lastValue?_concat]
  split
  · rfl
  · rfl

end Params

end RoutePattern
