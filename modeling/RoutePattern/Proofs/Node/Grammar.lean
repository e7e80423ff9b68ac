import RoutePattern.Node.Parse

/-!
# The grammar of patterns

`IsSequence`, `IsSegment` and `IsBody` are the rules of the grammar:

* a pattern, like an alternative of a group, is a sequence of segments;
* a segment is a character of a literal, an escaped character, a parameter or a group;
* the body of a group is made of alternatives with a `|` between each two of them.

Whether a text can be read hangs on the number of groups that are open after each lexeme
(`exists_readAll_iff`). So the texts that can be read are those of the grammar
(`exists_parse_eq_ok_iff`): a sequence brings the reader back to the number of open groups that it
was read from, and what is accepted with groups open is the rest of their bodies.
-/

namespace RoutePattern

/-- A character that has a meaning of its own. -/
def isReserved (c : Char) : Bool := ['\\', '(', ')', '|', ':'].contains c

theorem isReserved_cases {c : Char} (h : isReserved c = true) :
    c = '\\' ∨ c = '(' ∨ c = ')' ∨ c = '|' ∨ c = ':' := by
  simpa [isReserved] using h

/-- The mark of an optional element, or no mark. -/
def IsMark (mark : Text) : Prop := mark = [] ∨ mark = ['?']

mutual

/-- A sequence of segments. -/
inductive IsSequence : Text → Prop
  | nil : IsSequence []
  | cons {segment rest : Text} (hsegment : IsSegment segment) (hrest : IsSequence rest) :
      IsSequence (segment ++ rest)

/-- A character of a literal, an escape, a parameter or a group. -/
inductive IsSegment : Text → Prop
  | char {c : Char} (hc : isReserved c = false) : IsSegment [c]
  | escape {c : Char} : IsSegment ['\\', c]
  | parameter {first : Char} {name mark : Text} (hfirst : isNameStart first = true)
      (hname : ∀ c ∈ name, isNamePart c = true) (hmark : IsMark mark) :
      IsSegment (':' :: first :: name ++ mark)
  | group {body mark : Text} (hbody : IsBody body) (hmark : IsMark mark) :
      IsSegment ('(' :: body ++ ')' :: mark)

/-- Alternatives with a `|` between each two of them. -/
inductive IsBody : Text → Prop
  | one {alternative : Text} (halternative : IsSequence alternative) : IsBody alternative
  | more {alternative rest : Text} (halternative : IsSequence alternative) (hrest : IsBody rest) :
      IsBody (alternative ++ '|' :: rest)

end

/-! ## Open groups -/

/-- The number of open groups after a lexeme, if it may stand where `depth` groups are open. -/
def Lexeme.depth? (depth : Nat) : Lexeme → Option Nat
  | char _ => some depth
  | parameter _ _ => some depth
  | opening _ => some (depth + 1)
  | closing _ _ => if depth = 0 then none else some (depth - 1)
  | bar _ => if depth = 0 then none else some depth
  | loneEscape _ => none
  | unnamed _ => none

/-- The number of open groups after some lexemes. -/
def depthAfter (depth : Nat) : List Lexeme → Option Nat
  | [] => some depth
  | lexeme :: rest => (lexeme.depth? depth).bind fun depth => depthAfter depth rest

@[simp] theorem depthAfter_nil (depth : Nat) : depthAfter depth [] = some depth := rfl

@[simp] theorem depthAfter_cons (depth : Nat) (lexeme : Lexeme) (rest : List Lexeme) :
    depthAfter depth (lexeme :: rest) =
      (lexeme.depth? depth).bind fun depth => depthAfter depth rest := rfl

/-- The groups that are open after two runs of lexemes are counted one run after the other. -/
@[simp] theorem depthAfter_append (depth : Nat) (lexemes others : List Lexeme) :
    depthAfter depth (lexemes ++ others) =
      (depthAfter depth lexemes).bind fun depth => depthAfter depth others := by
  induction lexemes generalizing depth with
  | nil => rfl
  | cons lexeme lexemes ih => simp [ih, Option.bind_assoc]

namespace Draft

/-- A literal character opens and closes nothing. -/
theorem groups_addChar (draft : Draft) (c : Char) : (draft.addChar c).groups = draft.groups := by
  unfold addChar
  split <;> rfl

/-- Reading a lexeme changes the number of open groups as the lexeme says. -/
theorem depth?_of_read_eq_ok {draft next : Draft} {lexeme : Lexeme}
    (h : draft.read lexeme = .ok next) :
    lexeme.depth? draft.groups.length = some next.groups.length := by
  cases lexeme with
  | char c =>
    obtain rfl := Except.ok.inj h
    rw [groups_addChar, Lexeme.depth?]
  | parameter name optional =>
    obtain rfl := Except.ok.inj h
    rfl
  | opening offset =>
    obtain rfl := Except.ok.inj h
    rfl
  | closing offset optional =>
    cases hgroups : draft.groups with
    | nil => simp [read, closeGroup?, hgroups] at h
    | cons group outer =>
      simp only [read, closeGroup?, hgroups, Except.ok.injEq] at h
      subst h
      simp [Lexeme.depth?]
  | bar offset =>
    cases hgroups : draft.groups with
    | nil => simp [read, endAlternative?, hgroups] at h
    | cons group outer =>
      simp only [read, endAlternative?, hgroups, Except.ok.injEq] at h
      subst h
      simp [Lexeme.depth?]
  | loneEscape offset => cases h
  | unnamed offset => cases h

/-- A lexeme that cannot be read may not stand there. -/
theorem depth?_of_read_eq_error {draft : Draft} {lexeme : Lexeme} {e : Nat × Misspelling}
    (h : draft.read lexeme = .error e) : lexeme.depth? draft.groups.length = none := by
  cases lexeme with
  | char c => cases h
  | parameter name optional => cases h
  | opening offset => cases h
  | closing offset optional =>
    cases hgroups : draft.groups with
    | nil => rfl
    | cons group outer => simp [read, closeGroup?, hgroups] at h
  | bar offset =>
    cases hgroups : draft.groups with
    | nil => rfl
    | cons group outer => simp [read, endAlternative?, hgroups] at h
  | loneEscape offset => rfl
  | unnamed offset => rfl

/-- Lexemes can be read if each of them may stand where it does. -/
theorem exists_readAll_iff {draft : Draft} {lexemes : List Lexeme} {depth : Nat} :
    (∃ last, draft.readAll lexemes = .ok last ∧ last.groups.length = depth) ↔
      depthAfter draft.groups.length lexemes = some depth := by
  induction lexemes generalizing draft with
  | nil => simp [readAll]
  | cons lexeme lexemes ih =>
    rw [readAll, depthAfter_cons]
    split
    · next next hnext =>
      rw [depth?_of_read_eq_ok hnext]
      exact ih
    · next e he =>
      rw [depth?_of_read_eq_error he]
      simp

end Draft

/-- A text can be read if its lexemes open and close its groups. -/
theorem exists_readTree_iff {pattern : Text} :
    (∃ nodes, readTree pattern = .ok nodes) ↔ depthAfter 0 (lexemes pattern) = some 0 := by
  have hread := @Draft.exists_readAll_iff .empty (lexemes pattern) 0
  rw [show Draft.empty.groups.length = 0 from rfl] at hread
  rw [← hread, readTree]
  constructor
  · rintro ⟨nodes, hnodes⟩
    split at hnodes
    · next draft hdraft =>
      refine ⟨draft, hdraft, ?_⟩
      unfold Draft.finish at hnodes
      split at hnodes
      · next hgroups => rw [hgroups]; rfl
      · cases hnodes
    · cases hnodes
  · rintro ⟨last, hlast, hgroups⟩
    rw [hlast]
    simp only [Draft.finish, List.length_eq_zero_iff.1 hgroups]
    exact ⟨_, rfl⟩

/-! ## Texts that are accepted -/

/-- What is left of a text closes all groups: `depth` of them are open, and `pending` is not
complete yet. -/
def Accepts (pending : Pending) (depth : Nat) (offset : Nat) (text : Text) : Prop :=
  depthAfter depth (lexemesFrom pending offset text) = some 0

namespace Pending

/-- What is left open is complete, and leads from `depth` open groups to `final`. -/
def Completes (pending : Pending) (depth final : Nat) : Prop :=
  depthAfter depth pending.finish = some final

theorem completes_nothing {depth final : Nat} : nothing.Completes depth final ↔ depth = final := by
  simp [Completes, finish]

/-- A group whose mark may still come counts as closed. -/
theorem completes_closing {place depth final : Nat} :
    (closing place).Completes depth final ↔ depth = final + 1 := by
  simp only [Completes, finish, depthAfter_cons, Lexeme.depth?]
  split
  · simp; omega
  · simp; omega

theorem completes_name {place depth final : Nat} {first : Char} {read : Text} :
    (name place (first :: read)).Completes depth final ↔ depth = final := by
  simp [Completes, finish, Lexeme.depth?]

/-- An escape waits for its character. -/
theorem not_completes_escape {place depth final : Nat} :
    ¬ (escape place).Completes depth final := by
  simp [Completes, finish, Lexeme.depth?]

/-- A colon waits for a name. -/
theorem not_completes_unnamed {place depth final : Nat} :
    ¬ (name place []).Completes depth final := by
  simp [Completes, finish, Lexeme.depth?]

/-- One character is read. -/
theorem accepts_cons_iff {pending next : Pending} {depth offset : Nat} {c : Char} {rest : Text}
    {made : List Lexeme} (hstep : pending.step offset c = (made, next)) :
    Accepts pending depth offset (c :: rest) ↔
      ∃ final, depthAfter depth made = some final ∧
        Accepts next final (offset + c.utf8Size) rest := by
  rw [Accepts, lexemesFrom, hstep, depthAfter_append, Option.bind_eq_some_iff]
  rfl

theorem step_name_nil {place offset : Nat} {c : Char} (h : isNameStart c = true) :
    (name place []).step offset c = ([], name place [c]) := by
  rw [step, if_pos h]

theorem step_name_of_isNamePart {place offset : Nat} {first c : Char} {read : Text}
    (h : isNamePart c = true) :
    (name place (first :: read)).step offset c = ([], name place (first :: (read ++ [c]))) := by
  rw [step, if_pos h]
  rfl

theorem step_closing_mark {place offset : Nat} :
    (closing place).step offset '?' = ([.closing place true], nothing) := rfl

theorem step_name_mark {place offset : Nat} {first : Char} {read : Text} :
    (name place (first :: read)).step offset '?' =
      ([.parameter (first :: read) true], nothing) := by
  rw [step, if_neg (by decide), if_pos rfl]

/-- Where a character does not belong to what is left open, that is complete. -/
theorem accepts_close_iff {pending : Pending} {depth offset : Nat} {c : Char} {rest : Text}
    (hclose : pending.step offset c = pending.close offset c) :
    Accepts pending depth offset (c :: rest) ↔
      ∃ final, pending.Completes depth final ∧ Accepts nothing final offset (c :: rest) := by
  rw [Accepts, lexemesFrom, hclose, close, List.append_assoc, depthAfter_append,
    Option.bind_eq_some_iff]
  rfl

theorem isNamePart_of_isReserved {c : Char} (h : isReserved c = true) :
    isNameStart c = false ∧ isNamePart c = false ∧ c ≠ '?' := by
  rcases isReserved_cases h with rfl | rfl | rfl | rfl | rfl <;> decide

/-- A character with a meaning of its own belongs to nothing that is complete. -/
theorem step_of_isReserved {pending : Pending} {depth final offset : Nat} {c : Char}
    (hcompletes : pending.Completes depth final) (hc : isReserved c = true) :
    pending.step offset c = pending.close offset c := by
  obtain ⟨hstart, hpart, hmark⟩ := isNamePart_of_isReserved hc
  cases pending with
  | nothing => rfl
  | escape place => exact absurd hcompletes not_completes_escape
  | closing place => rw [step, if_neg hmark]
  | name place read =>
    cases read with
    | nil => simp [step, hstart]
    | cons a read => simp [step, hpart, hmark]

end Pending

/-! ## Texts of the grammar are accepted -/

open Pending

/-- The rest is accepted wherever what was read before it leads to `depth` open groups. -/
def Follows (depth : Nat) (rest : Text) : Prop :=
  ∀ (pending : Pending) (before offset : Nat), pending.Completes before depth →
    Accepts pending before offset rest

theorem Follows.accepts {depth : Nat} {rest : Text} (h : Follows depth rest) (offset : Nat) :
    Accepts nothing depth offset rest :=
  h nothing depth offset (completes_nothing.2 rfl)

/-- Before a character with a meaning of its own everything is complete. -/
theorem follows_of_isReserved {depth : Nat} {c : Char} {rest : Text} (hc : isReserved c = true)
    (h : ∀ offset, Accepts nothing depth offset (c :: rest)) : Follows depth (c :: rest) :=
  fun _ _ offset hcompletes =>
    (accepts_close_iff (step_of_isReserved hcompletes hc)).2 ⟨depth, hcompletes, h offset⟩

theorem start_of_not_isReserved {offset : Nat} {c : Char} (h : isReserved c = false) :
    start offset c = ([.char c], nothing) := by
  unfold start
  split <;> first | rfl | simp [isReserved] at h

/-- A literal character leaves the open groups as they are. -/
theorem accepts_char_iff {depth offset : Nat} {c : Char} {rest : Text} (hc : isReserved c = false) :
    Accepts nothing depth offset (c :: rest) ↔
      Accepts nothing depth (offset + c.utf8Size) rest := by
  have hstep : nothing.step offset c = ([.char c], nothing) := start_of_not_isReserved hc
  simp [accepts_cons_iff hstep, Lexeme.depth?]

/-- A literal character may also go on with a name or be its mark, and the rest is accepted then as
well. -/
theorem follows_char {depth : Nat} {c : Char} {rest : Text} (hc : isReserved c = false)
    (h : Follows depth rest) : Follows depth (c :: rest) := by
  intro pending before offset hcompletes
  have hapart (hclose : pending.step offset c = pending.close offset c) :
      Accepts pending before offset (c :: rest) :=
    (accepts_close_iff hclose).2 ⟨depth, hcompletes, (accepts_char_iff hc).2 (h.accepts _)⟩
  cases pending with
  | nothing => exact hapart rfl
  | escape place => exact absurd hcompletes not_completes_escape
  | closing place =>
    by_cases hmark : c = '?'
    · subst hmark
      exact (accepts_cons_iff step_closing_mark).2 ⟨depth, hcompletes, h.accepts _⟩
    · exact hapart (by rw [step, if_neg hmark])
  | name place read =>
    cases read with
    | nil => exact absurd hcompletes not_completes_unnamed
    | cons first read =>
      -- A character that a name may have goes on with it, whatever it begins otherwise.
      by_cases hpart : isNamePart c = true
      · exact (accepts_cons_iff (step_name_of_isNamePart hpart)).2
          ⟨before, rfl, h _ _ _ (completes_name.2 (completes_name.1 hcompletes))⟩
      · by_cases hmark : c = '?'
        · subst hmark
          exact (accepts_cons_iff step_name_mark).2 ⟨depth, hcompletes, h.accepts _⟩
        · exact hapart (by rw [step, if_neg hpart, if_neg hmark])

theorem follows_escape {depth : Nat} {c : Char} {rest : Text} (h : Follows depth rest) :
    Follows depth ('\\' :: c :: rest) :=
  follows_of_isReserved rfl fun _ =>
    (accepts_cons_iff rfl).2 ⟨depth, rfl, (accepts_cons_iff rfl).2 ⟨depth, rfl, h.accepts _⟩⟩

/-- An optional element is complete with its mark, and another one without. -/
theorem accepts_mark {pending : Pending} {depth final offset : Nat} {mark rest : Text}
    (hmark : IsMark mark) (hcompletes : pending.Completes depth final)
    (hstep : ∀ offset, ∃ made, pending.step offset '?' = (made, nothing) ∧
      depthAfter depth made = some final)
    (h : Follows final rest) : Accepts pending depth offset (mark ++ rest) := by
  rcases hmark with rfl | rfl
  · exact h _ _ _ hcompletes
  · obtain ⟨made, hmade, hdepth⟩ := hstep offset
    exact (accepts_cons_iff hmade).2 ⟨final, hdepth, h.accepts _⟩

/-- The rest of a name and its mark are read to their end. -/
theorem accepts_name {place depth offset : Nat} {first : Char} {read name mark rest : Text}
    (hname : ∀ c ∈ name, isNamePart c = true) (hmark : IsMark mark) (h : Follows depth rest) :
    Accepts (.name place (first :: read)) depth offset (name ++ (mark ++ rest)) := by
  induction name generalizing read offset with
  | nil =>
    rw [List.nil_append]
    exact accepts_mark hmark (completes_name.2 rfl) (fun _ => ⟨_, step_name_mark, rfl⟩) h
  | cons c name ih =>
    rw [List.forall_mem_cons] at hname
    exact (accepts_cons_iff (step_name_of_isNamePart hname.1)).2 ⟨depth, rfl, ih hname.2⟩

/-- A parameter may stand wherever its rest may follow. -/
theorem follows_parameter {depth : Nat} {first : Char} {name mark rest : Text}
    (hfirst : isNameStart first = true) (hname : ∀ c ∈ name, isNamePart c = true)
    (hmark : IsMark mark) (h : Follows depth rest) :
    Follows depth (':' :: first :: (name ++ (mark ++ rest))) :=
  follows_of_isReserved rfl fun _ =>
    (accepts_cons_iff rfl).2 ⟨depth, rfl, (accepts_cons_iff (step_name_nil hfirst)).2
      ⟨depth, rfl, accepts_name hname hmark h⟩⟩

/-- The end of a group leaves one group less. -/
theorem follows_closing {depth : Nat} {mark rest : Text} (hmark : IsMark mark)
    (h : Follows depth rest) : Follows (depth + 1) (')' :: (mark ++ rest)) :=
  follows_of_isReserved rfl fun _ =>
    (accepts_cons_iff rfl).2 ⟨depth + 1, rfl, accepts_mark hmark (completes_closing.2 rfl)
      (fun _ => ⟨_, step_closing_mark, rfl⟩) h⟩

theorem follows_opening {depth : Nat} {rest : Text} (h : Follows (depth + 1) rest) :
    Follows depth ('(' :: rest) :=
  follows_of_isReserved rfl fun _ => (accepts_cons_iff rfl).2 ⟨depth + 1, rfl, h.accepts _⟩

theorem follows_bar {depth : Nat} {rest : Text} (h : Follows (depth + 1) rest) :
    Follows (depth + 1) ('|' :: rest) :=
  follows_of_isReserved rfl fun _ => (accepts_cons_iff rfl).2 ⟨depth + 1, rfl, h.accepts _⟩

mutual

/-- A text that may follow may do so behind a sequence as well. -/
theorem IsSequence.follows {depth : Nat} {text rest : Text} : IsSequence text →
    Follows depth rest → Follows depth (text ++ rest)
  | .nil, h => h
  | .cons hsegment hrest, h => by
    rw [List.append_assoc]
    exact hsegment.follows (hrest.follows h)

theorem IsSegment.follows {depth : Nat} {text rest : Text} : IsSegment text →
    Follows depth rest → Follows depth (text ++ rest)
  | .char hc, h => follows_char hc h
  | .escape, h => follows_escape h
  | .parameter hfirst hname hmark, h => by
    simpa using follows_parameter hfirst hname hmark h
  | .group hbody hmark, h => by
    have hrest := hbody.follows (follows_closing hmark h)
    simpa using follows_opening hrest

theorem IsBody.follows {depth : Nat} {text rest : Text} : IsBody text →
    Follows (depth + 1) rest → Follows (depth + 1) (text ++ rest)
  | .one halternative, h => halternative.follows h
  | .more halternative hrest, h => by
    rw [List.append_assoc]
    exact halternative.follows (follows_bar (hrest.follows h))

end

/-- The texts of the grammar are accepted. -/
theorem accepts_of_isSequence {text : Text} (h : IsSequence text) : Accepts nothing 0 0 text := by
  have hfollows : Follows 0 (text ++ []) := h.follows fun _ _ _ hcompletes => hcompletes
  rw [List.append_nil] at hfollows
  exact hfollows.accepts 0

/-! ## Accepted texts are of the grammar -/

/-- The text is the rest of the bodies of `depth` open groups and of what stands around them. -/
def Closes : (depth : Nat) → (text : Text) → Prop
  | 0, text => IsSequence text
  | depth + 1, text => ∃ body mark rest, text = body ++ ')' :: (mark ++ rest) ∧ IsBody body ∧
      IsMark mark ∧ Closes depth rest

/-- A segment in front of a body belongs to its first alternative. -/
theorem IsBody.cons {segment body : Text} (hsegment : IsSegment segment) (hbody : IsBody body) :
    IsBody (segment ++ body) := by
  cases hbody with
  | one halternative => exact .one (.cons hsegment halternative)
  | more halternative hrest =>
    rw [← List.append_assoc]
    exact .more (.cons hsegment halternative) hrest

namespace Closes

variable {depth : Nat} {text : Text}

theorem cons {segment : Text} (hsegment : IsSegment segment) (h : Closes depth text) :
    Closes depth (segment ++ text) := by
  cases depth with
  | zero => exact .cons hsegment h
  | succ depth =>
    -- The segment goes into the body of the group that is closed first.
    obtain ⟨body, mark, rest, rfl, hbody, hmark, hrest⟩ := h
    exact ⟨segment ++ body, mark, rest, by rw [List.append_assoc], .cons hsegment hbody, hmark,
      hrest⟩

/-- A bar ends an empty alternative of the innermost group. -/
theorem bar (h : Closes (depth + 1) text) : Closes (depth + 1) ('|' :: text) := by
  obtain ⟨body, mark, rest, rfl, hbody, hmark, hrest⟩ := h
  exact ⟨'|' :: body, mark, rest, rfl, .more .nil hbody, hmark, hrest⟩

theorem closing {mark : Text} (hmark : IsMark mark) (h : Closes depth text) :
    Closes (depth + 1) (')' :: (mark ++ text)) :=
  ⟨[], mark, text, rfl, .one .nil, hmark, h⟩

/-- Behind an opening parenthesis the innermost body and its end are one segment. -/
theorem opening (h : Closes (depth + 1) text) : Closes depth ('(' :: text) := by
  obtain ⟨body, mark, rest, rfl, hbody, hmark, hrest⟩ := h
  simpa using cons (.group hbody hmark) hrest

end Closes

theorem exists_of_accepts_escape {place depth offset : Nat} {text : Text}
    (h : Accepts (.escape place) depth offset text) :
    ∃ c rest next, text = c :: rest ∧ Accepts nothing depth next rest := by
  cases text with
  | nil => exact absurd h not_completes_escape
  | cons c rest =>
    obtain ⟨final, hfinal, hrest⟩ := (accepts_cons_iff rfl).1 h
    obtain rfl := Option.some.inj hfinal
    exact ⟨c, rest, _, rfl, hrest⟩

/-- What is accepted behind a closing parenthesis is its mark, if there is one, and the rest. -/
theorem exists_of_accepts_closing {place depth offset : Nat} {text : Text}
    (h : Accepts (.closing place) depth offset text) :
    ∃ final mark rest next, depth = final + 1 ∧ text = mark ++ rest ∧ IsMark mark ∧
      Accepts nothing final next rest := by
  cases text with
  | nil => exact ⟨0, [], [], 0, completes_closing.1 h, rfl, .inl rfl, completes_nothing.2 rfl⟩
  | cons c rest =>
    by_cases hmark : c = '?'
    · subst hmark
      obtain ⟨final, hfinal, hrest⟩ := (accepts_cons_iff step_closing_mark).1 h
      have hcompletes : (Pending.closing place).Completes depth final := hfinal
      exact ⟨final, ['?'], rest, _, completes_closing.1 hcompletes, rfl, .inr rfl, hrest⟩
    · obtain ⟨final, hfinal, hrest⟩ := (accepts_close_iff (by rw [step, if_neg hmark])).1 h
      exact ⟨final, [], c :: rest, _, completes_closing.1 hfinal, rfl, .inl rfl, hrest⟩

/-- What is accepted in a name is the rest of the name, its mark and what follows. -/
theorem exists_of_accepts_name {place depth offset : Nat} {first : Char} {read text : Text}
    (h : Accepts (.name place (first :: read)) depth offset text) :
    ∃ name mark rest next, text = name ++ (mark ++ rest) ∧ (∀ c ∈ name, isNamePart c = true) ∧
      IsMark mark ∧ Accepts nothing depth next rest := by
  induction text generalizing read offset with
  | nil =>
    obtain rfl := completes_name.1 h
    exact ⟨[], [], [], 0, rfl, by simp, .inl rfl, completes_nothing.2 rfl⟩
  | cons c text ih =>
    by_cases hpart : isNamePart c = true
    · obtain ⟨final, hfinal, hrest⟩ := (accepts_cons_iff (step_name_of_isNamePart hpart)).1 h
      obtain rfl := Option.some.inj hfinal
      obtain ⟨name, mark, rest, next, rfl, hname, hmark, haccepts⟩ := ih hrest
      exact ⟨c :: name, mark, rest, next, rfl, List.forall_mem_cons.2 ⟨hpart, hname⟩, hmark,
        haccepts⟩
    · by_cases hmark : c = '?'
      · subst hmark
        obtain ⟨final, hfinal, hrest⟩ := (accepts_cons_iff step_name_mark).1 h
        obtain rfl := Option.some.inj hfinal
        exact ⟨[], ['?'], text, _, rfl, by simp, .inr rfl, hrest⟩
      · obtain ⟨final, hfinal, hrest⟩ :=
          (accepts_close_iff (by rw [step, if_neg hpart, if_neg hmark])).1 h
        obtain rfl := completes_name.1 hfinal
        exact ⟨[], [], c :: text, _, rfl, by simp, .inl rfl, hrest⟩

theorem exists_of_accepts_unnamed {place depth offset : Nat} {text : Text}
    (h : Accepts (.name place []) depth offset text) :
    ∃ first name mark rest next, text = first :: (name ++ (mark ++ rest)) ∧
      isNameStart first = true ∧ (∀ c ∈ name, isNamePart c = true) ∧ IsMark mark ∧
      Accepts nothing depth next rest := by
  cases text with
  | nil => exact absurd h not_completes_unnamed
  | cons c text =>
    by_cases hstart : isNameStart c = true
    · obtain ⟨final, hfinal, hrest⟩ := (accepts_cons_iff (step_name_nil hstart)).1 h
      obtain rfl := Option.some.inj hfinal
      obtain ⟨name, mark, rest, next, rfl, hname, hmark, haccepts⟩ := exists_of_accepts_name hrest
      exact ⟨c, name, mark, rest, next, rfl, hstart, hname, hmark, haccepts⟩
    · obtain ⟨final, hfinal, -⟩ := (accepts_close_iff (by rw [step, if_neg hstart])).1 h
      exact absurd hfinal not_completes_unnamed

/-- Accepted texts close the groups that are open, and are of the grammar. -/
theorem closes_of_accepts {depth offset : Nat} {text : Text}
    (h : Accepts nothing depth offset text) : Closes depth text := by
  -- By the length of the text: behind a parameter or a group there is less to read.
  induction hlength : text.length using Nat.strongRecOn generalizing depth offset text with
  | ind length ih =>
    cases text with
    | nil =>
      obtain rfl := completes_nothing.1 h
      exact IsSequence.nil
    | cons c rest =>
      rw [List.length_cons] at hlength
      cases hspecial : isReserved c with
      | false =>
        have hrest := (accepts_char_iff hspecial).1 h
        exact Closes.cons (.char hspecial) (ih _ (by omega) hrest rfl)
      | true =>
        rcases isReserved_cases hspecial with rfl | rfl | rfl | rfl | rfl
        · obtain ⟨final, hfinal, hescape⟩ := (accepts_cons_iff rfl).1 h
          obtain rfl := Option.some.inj hfinal
          obtain ⟨c, rest, next, rfl, hrest⟩ := exists_of_accepts_escape hescape
          rw [List.length_cons] at hlength
          exact Closes.cons .escape (ih _ (by omega) hrest rfl)
        · obtain ⟨final, hfinal, hrest⟩ := (accepts_cons_iff rfl).1 h
          obtain rfl := Option.some.inj hfinal
          exact Closes.opening (ih _ (by omega) hrest rfl)
        · obtain ⟨final, hfinal, hclosing⟩ := (accepts_cons_iff rfl).1 h
          obtain rfl := Option.some.inj hfinal
          obtain ⟨final, mark, rest, next, rfl, rfl, hmark, hrest⟩ :=
            exists_of_accepts_closing hclosing
          rw [List.length_append] at hlength
          exact Closes.closing hmark (ih _ (by omega) hrest rfl)
        · obtain ⟨final, hfinal, hrest⟩ := (accepts_cons_iff rfl).1 h
          cases depth with
          | zero => cases hfinal
          | succ depth =>
            obtain rfl := Option.some.inj hfinal
            exact Closes.bar (ih _ (by omega) hrest rfl)
        · obtain ⟨final, hfinal, hname⟩ := (accepts_cons_iff rfl).1 h
          obtain rfl := Option.some.inj hfinal
          obtain ⟨first, name, mark, rest, next, rfl, hfirst, hpart, hmark, hrest⟩ :=
            exists_of_accepts_unnamed hname
          simp only [List.length_cons, List.length_append] at hlength
          have hcloses := Closes.cons (.parameter hfirst hpart hmark) (ih _ (by omega) hrest rfl)
          simpa using hcloses

/-! ## Patterns that are read -/

/-- The texts that can be read are those of the grammar. -/
theorem exists_readTree_iff_isSequence {pattern : Text} :
    (∃ nodes, readTree pattern = .ok nodes) ↔ IsSequence pattern := by
  rw [exists_readTree_iff]
  exact ⟨fun h => closes_of_accepts h, accepts_of_isSequence⟩

/-- The patterns that are read are the texts of the grammar that are not too long. -/
theorem exists_parse_eq_ok_iff {pattern : Text} : (∃ nodes, parse pattern = .ok nodes) ↔
    pattern.byteLength ≤ maxPatternLength ∧ IsSequence pattern := by
  rw [← exists_readTree_iff_isSequence]
  unfold parse
  split
  · next hlong =>
    refine iff_of_false (by simp) ?_
    rintro ⟨hle, -⟩
    omega
  · next hshort =>
    rw [and_iff_right (by omega)]
    split
    · next nodes hnodes => simp [hnodes]
    · next herror => simp [herror]

/-- What is read from a pattern is the tree of its text. -/
theorem readTree_of_parse {pattern : Text} {nodes : List Node} (h : parse pattern = .ok nodes) :
    readTree pattern = .ok nodes := by
  unfold parse at h
  split at h
  · cases h
  · split at h
    · next tree htree => exact htree.trans (congrArg Except.ok (Except.ok.inj h))
    · cases h

/-- A pattern is refused for its length or for its spelling. -/
theorem parse_eq_error_iff {pattern : Text} {e : PatternError} : parse pattern = .error e ↔
    maxPatternLength < pattern.byteLength ∧ e = .tooLong pattern.byteLength ∨
    pattern.byteLength ≤ maxPatternLength ∧ ∃ offset reason,
      readTree pattern = .error (offset, reason) ∧ e = .misspelled pattern offset reason := by
  unfold parse
  split
  · next hlong => simp [hlong, Nat.not_le_of_gt hlong, eq_comm]
  · next hshort =>
    split
    · next hread => simp [hread, hshort]
    · next offset reason hread =>
      rw [hread]
      constructor
      · rintro ⟨⟩
        exact .inr ⟨Nat.le_of_not_lt hshort, offset, reason, rfl, rfl⟩
      · rintro (⟨hlong, -⟩ | ⟨-, _, _, ⟨⟩, rfl⟩)
        · exact absurd hlong hshort
        · rfl

/-- The patterns that are refused for their spelling are not of the grammar. -/
theorem exists_parse_eq_misspelled_iff {pattern : Text} :
    (∃ text offset reason, parse pattern = .error (.misspelled text offset reason)) ↔
      pattern.byteLength ≤ maxPatternLength ∧ ¬ IsSequence pattern := by
  rw [← exists_readTree_iff_isSequence]
  simp only [parse_eq_error_iff]
  cases readTree pattern with
  | ok nodes => simp
  | error offence =>
    constructor
    · rintro ⟨_, _, _, ⟨-, heq⟩ | ⟨hle, -⟩⟩
      · cases heq
      · exact ⟨hle, by simp⟩
    · rintro ⟨hle, -⟩
      exact ⟨_, _, _, .inr ⟨hle, offence.1, offence.2, rfl, rfl⟩⟩

end RoutePattern
