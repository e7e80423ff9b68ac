import RoutePattern.Proofs.Node.Reading

/-!
# The first offence

`firstOffence?` scans a pattern from left to right with a stack of the offsets of its open
brackets, and knows nothing of lexemes, nodes or ids. The reader of the lexemes keeps more of each
open group, but of all this only the offset tells what it refuses (`readAll_finish_eq_error_iff`).
What a character leaves open is settled by the characters behind it, where the scan looks at the
character itself (`Pending.offence?`); so both find the same (`offenceIn?_lexemesFrom`), and a
pattern is refused just for the first offence of the scan (`parse_eq_error_iff_firstOffence?`).
-/

namespace RoutePattern

/-! ## The scan -/

/-- The first offence in a text that begins at `offset`, where the brackets at the offsets
`opened` are open, innermost first. A bracket that stays open is an offence at its end. -/
def firstOffence? (opened : List Nat) (offset : Nat) : Text → Option (Nat × Misspelling)
  | [] => opened.head?.map fun place => (place, .unmatchedParenthesis)
  | '\\' :: rest =>
    match rest with
    | [] => some (offset, .danglingEscape)
    | c :: rest => firstOffence? opened (offset + 1 + c.utf8Size) rest
  | '(' :: rest => firstOffence? (offset :: opened) (offset + 1) rest
  | ')' :: rest =>
    match opened with
    | [] => some (offset, .unmatchedParenthesis)
    | _ :: outer => firstOffence? outer (offset + 1) rest
  | '|' :: rest =>
    match opened with
    | [] => some (offset, .strayBar)
    | _ :: _ => firstOffence? opened (offset + 1) rest
  | ':' :: rest =>
    if rest.head?.any isNameStart then firstOffence? opened (offset + 1) rest
    else some (offset, .missingName)
  | c :: rest => firstOffence? opened (offset + c.utf8Size) rest

theorem firstOffence?_of_not_isReserved {c : Char} (hc : isReserved c = false)
    (opened : List Nat) (offset : Nat) (rest : Text) :
    firstOffence? opened offset (c :: rest) =
      firstOffence? opened (offset + c.utf8Size) rest := by
  rw [firstOffence?] <;> exact fun he => absurd (he ▸ hc) (by decide)

/-! ## The lexemes -/

/-- The first offence in a list of lexemes. -/
def offenceIn? (opened : List Nat) : List Lexeme → Option (Nat × Misspelling)
  | [] => opened.head?.map fun place => (place, .unmatchedParenthesis)
  | .char _ :: rest => offenceIn? opened rest
  | .parameter _ _ :: rest => offenceIn? opened rest
  | .opening offset :: rest => offenceIn? (offset :: opened) rest
  | .closing offset _ :: rest =>
    match opened with
    | [] => some (offset, .unmatchedParenthesis)
    | _ :: outer => offenceIn? outer rest
  | .bar offset :: rest =>
    match opened with
    | [] => some (offset, .strayBar)
    | _ :: _ => offenceIn? opened rest
  | .loneEscape offset :: _ => some (offset, .danglingEscape)
  | .unnamed offset :: _ => some (offset, .missingName)

namespace Draft

/-- The offsets of the open brackets, innermost first. -/
def opened (draft : Draft) : List Nat := draft.groups.map OpenGroup.offset

/-- What is read of a lexeme, or refused, hangs on the open brackets. -/
theorem offenceIn?_cons (draft : Draft) (lexeme : Lexeme) (rest : List Lexeme) :
    offenceIn? draft.opened (lexeme :: rest) =
      match draft.read lexeme with
      | .ok next => offenceIn? next.opened rest
      | .error offence => some offence := by
  cases lexeme with
  | char c => simp only [read, offenceIn?, opened, groups_addChar]
  | parameter name optional => rfl
  | opening offset => rfl
  | closing offset optional =>
    cases hgroups : draft.groups <;> simp [read, closeGroup?, offenceIn?, opened, hgroups]
  | bar offset =>
    cases hgroups : draft.groups <;> simp [read, endAlternative?, offenceIn?, opened, hgroups]
  | loneEscape offset => rfl
  | unnamed offset => rfl

theorem offenceIn?_nil (draft : Draft) :
    offenceIn? draft.opened [] =
      match draft.finish with
      | .ok _ => none
      | .error offence => some offence := by
  cases hgroups : draft.groups <;> simp [finish, offenceIn?, opened, hgroups]

/-- The lexemes are refused for their first offence. -/
theorem readAll_finish_eq_error_iff {draft : Draft} {lexemes : List Lexeme}
    {e : Nat × Misspelling} :
    (draft.readAll lexemes >>= finish) = .error e ↔ offenceIn? draft.opened lexemes = some e := by
  induction lexemes generalizing draft with
  | nil =>
    have hread : (draft.readAll [] >>= finish) = draft.finish := rfl
    rw [hread, offenceIn?_nil]
    cases draft.finish <;> simp
  | cons lexeme lexemes ih =>
    rw [readAll, offenceIn?_cons]
    cases draft.read lexeme with
    | ok next => exact ih
    | error offence => simp [bind, Except.bind]

end Draft

/-! ## What is left open -/

/-- What the scan finds in a text that begins at `offset`, with `pending` left open before it. -/
def Pending.offence? (opened : List Nat) (offset : Nat) (text : Text) :
    Pending → Option (Nat × Misspelling)
  | nothing => firstOffence? opened offset text
  | escape place =>
    match text with
    | [] => some (place, .danglingEscape)
    | c :: rest => firstOffence? opened (offset + c.utf8Size) rest
  | closing place =>
    match opened with
    | [] => some (place, .unmatchedParenthesis)
    | _ :: outer => firstOffence? outer offset text
  | name place [] =>
    if text.head?.any isNameStart then firstOffence? opened offset text
    else some (place, .missingName)
  | name _ (_ :: _) => firstOffence? opened offset text

/-- The character `c` where nothing is left open before it. The rest of the lexemes is `tail`. -/
theorem offenceIn?_start {offset : Nat} {c : Char} {rest : Text} {tail : List Lexeme}
    (h : ∀ opened, offenceIn? opened tail =
      (Pending.start offset c).2.offence? opened (offset + c.utf8Size) rest)
    (opened : List Nat) :
    offenceIn? opened ((Pending.start offset c).1 ++ tail) =
      firstOffence? opened offset (c :: rest) := by
  cases hc : isReserved c with
  | false =>
    rw [start_of_not_isReserved hc] at h ⊢
    rw [firstOffence?_of_not_isReserved hc]
    exact h opened
  | true =>
    rcases isReserved_cases hc with rfl | rfl | rfl | rfl | rfl
    · exact (h opened).trans (by cases rest <;> rfl)
    · exact h (offset :: opened)
    · exact (h opened).trans (by cases opened <;> rfl)
    · cases opened with
      | nil => rfl
      | cons place outer => exact h (place :: outer)
    · exact h opened

/-- The character `c` where `pending` is left open before it. The rest of the lexemes is `tail`. -/
theorem offenceIn?_step {pending : Pending} {offset : Nat} {c : Char} {rest : Text}
    {tail : List Lexeme}
    (h : ∀ opened, offenceIn? opened tail =
      (pending.step offset c).2.offence? opened (offset + c.utf8Size) rest)
    (opened : List Nat) :
    offenceIn? opened ((pending.step offset c).1 ++ tail) =
      pending.offence? opened offset (c :: rest) := by
  -- If `c` does not go on with what is left open, that is complete and `c` starts anew.
  have hclose (hstep : pending.step offset c = pending.close offset c) :
      ∃ others, (pending.step offset c).1 ++ tail = pending.finish ++ others ∧
        ∀ opened, offenceIn? opened others = firstOffence? opened offset (c :: rest) := by
    rw [hstep] at h ⊢
    exact ⟨(Pending.start offset c).1 ++ tail, List.append_assoc .., offenceIn?_start h⟩
  -- What goes on with it has no meaning of its own, and the scan passes it.
  have hskip (hstart : isNameStart c = true ∨ isNamePart c = true ∨ c = '?')
      (opened : List Nat) : firstOffence? opened offset (c :: rest) =
        firstOffence? opened (offset + c.utf8Size) rest := by
    refine firstOffence?_of_not_isReserved (Bool.eq_false_iff.2 fun hreserved => ?_) ..
    obtain ⟨hstart', hpart, hmark⟩ := Pending.isNamePart_of_isReserved hreserved
    simp [hstart', hpart, hmark] at hstart
  cases pending with
  | nothing => exact offenceIn?_start h opened
  | escape place => exact h opened
  | closing place =>
    by_cases hmark : c = '?'
    · subst hmark
      cases opened with
      | nil => rfl
      | cons _ outer => exact (h outer).trans (hskip (.inr (.inr rfl)) outer).symm
    · obtain ⟨others, htail, hothers⟩ := hclose (by rw [Pending.step, if_neg hmark])
      rw [htail]
      cases opened with
      | nil => rfl
      | cons _ outer => exact hothers outer
  | name place read =>
    cases read with
    | nil =>
      by_cases hstart : isNameStart c = true
      · rw [Pending.step_name_nil hstart] at h ⊢
        rw [Pending.offence?, List.head?_cons, Option.any_some, if_pos hstart, hskip (.inl hstart)]
        exact h opened
      · obtain ⟨others, htail, -⟩ := hclose (by rw [Pending.step, if_neg hstart])
        rw [htail, Pending.offence?, List.head?_cons, Option.any_some, if_neg hstart]
        rfl
    | cons first read =>
      by_cases hpart : isNamePart c = true
      · rw [Pending.step_name_of_isNamePart hpart] at h ⊢
        exact (h opened).trans (hskip (.inr (.inl hpart)) opened).symm
      · by_cases hmark : c = '?'
        · subst hmark
          exact (h opened).trans (hskip (.inr (.inr rfl)) opened).symm
        · obtain ⟨others, htail, hothers⟩ :=
            hclose (by rw [Pending.step, if_neg hpart, if_neg hmark])
          rw [htail]
          exact hothers opened

/-- The lexemes of a text have the offence that the scan finds. -/
theorem offenceIn?_lexemesFrom (pending : Pending) (opened : List Nat) (offset : Nat)
    (text : Text) :
    offenceIn? opened (lexemesFrom pending offset text) = pending.offence? opened offset text := by
  induction text generalizing pending opened offset with
  | nil =>
    cases pending with
    | nothing => rfl
    | escape place => rfl
    | closing place => cases opened <;> rfl
    | name place read => cases read <;> rfl
  | cons c rest ih =>
    rw [lexemesFrom]
    exact offenceIn?_step (fun opened => ih _ opened _) opened

/-! ## Patterns that are refused -/

/-- The reader refuses a text for the first offence of the scan. -/
theorem readTree_eq_error_iff {pattern : Text} {e : Nat × Misspelling} :
    readTree pattern = .error e ↔ firstOffence? [] 0 pattern = some e := by
  rw [readTree_eq_bind, Draft.readText, Draft.readAll_finish_eq_error_iff, offenceIn?_lexemesFrom]
  rfl

/-- A pattern that is not too long is refused just if the scan finds an offence, and then for the
first one: the error names its place and what is wrong there. -/
theorem parse_eq_error_iff_firstOffence? (pattern : Text)
    (h : pattern.byteLength ≤ maxPatternLength) :
    (∀ e, parse pattern = .error e ↔ ∃ offset reason,
      firstOffence? [] 0 pattern = some (offset, reason) ∧
        e = .misspelled pattern offset reason) ∧
    ((∃ nodes, parse pattern = .ok nodes) ↔ firstOffence? [] 0 pattern = none) := by
  have herror (e : PatternError) : parse pattern = .error e ↔ ∃ offset reason,
      firstOffence? [] 0 pattern = some (offset, reason) ∧
        e = .misspelled pattern offset reason := by
    simp only [parse_eq_error_iff, readTree_eq_error_iff, h, Nat.not_lt_of_le h, false_and,
      true_and, false_or]
  refine ⟨herror, ?_⟩
  cases hoffence : firstOffence? [] 0 pattern with
  | none =>
    refine iff_of_true ?_ rfl
    cases hparse : parse pattern with
    | ok nodes => exact ⟨nodes, rfl⟩
    | error e =>
      obtain ⟨offset, reason, hsome, -⟩ := (herror e).1 hparse
      rw [hoffence] at hsome
      cases hsome
  | some offence =>
    have hparse := (herror _).2 ⟨offence.1, offence.2, hoffence, rfl⟩
    rw [hparse]
    exact iff_of_false nofun nofun

/-- The text `é\((a(:b?|c`, which opens two groups and closes none. -/
def openText : Text := ['é', '\\', '(', '(', 'a', '(', ':', 'b', '?', '|', 'c']

/-- Of the brackets that stay open the inner one is named, and before both a `:` without name. -/
theorem parse_openText :
    parse openText = .error (.misspelled openText 6 .unmatchedParenthesis) ∧
    parse (openText ++ [':', '?']) =
      .error (.misspelled (openText ++ [':', '?']) 12 .missingName) := by
  have hopen := (parse_eq_error_iff_firstOffence? openText (by decide)).1
  have hcolon := (parse_eq_error_iff_firstOffence? (openText ++ [':', '?']) (by decide)).1
  exact ⟨(hopen _).2 ⟨_, _, by decide, rfl⟩, (hcolon _).2 ⟨_, _, by decide, rfl⟩⟩

end RoutePattern
