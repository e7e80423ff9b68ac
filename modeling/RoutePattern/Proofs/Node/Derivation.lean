import RoutePattern.Node.Render
import RoutePattern.Proofs.Node.Grammar

/-!
# Derivations of patterns

`Segment` is a segment as the grammar derives it, and `spell` the text that it derives. A text can
have several derivations: in `:ab` the `b` can be the end of the name or a literal of its own. The
greedy one takes every name, and the `?` behind a name or a bracket, as far as it goes.

* `isSequence_iff_exists_derives`: the texts with a greedy derivation are those of the grammar.
* `Derives.unique`: no text has two of them.
-/

namespace RoutePattern

/-- A segment of a pattern as the grammar derives it. -/
inductive Segment where
  /-- A character of a literal. -/
  | char (c : Char)
  /-- A character of a literal behind a `\`. -/
  | escape (c : Char)
  /-- A parameter, and whether a `?` follows. -/
  | parameter (name : Text) (optional : Bool)
  /-- The first alternative of a group, the others, which have a `|` before them, and whether a `?`
  follows the group. -/
  | group (first : List Segment) (others : List (List Segment)) (optional : Bool)

/-- A text that the grammar allows as a name. -/
def IsName (name : Text) : Prop :=
  ∃ first rest, name = first :: rest ∧ isNameStart first = true ∧ ∀ c ∈ rest, isNamePart c = true

theorem isNamePart_of_isNameStart {c : Char} (h : isNameStart c = true) : isNamePart c = true := by
  simp only [isNameStart, isNamePart, Char.isAlphanum, Bool.or_eq_true] at h ⊢
  exact h.imp_left .inl

namespace Segment

mutual

/-- The text of a segment. -/
def spell : Segment → Text
  | char c => [c]
  | escape c => ['\\', c]
  | parameter name optional => ':' :: (name ++ optionalMark optional)
  | group first others optional =>
    '(' :: (spellSequence first ++ (spellOthers others ++ ')' :: optionalMark optional))

/-- The text of a sequence. -/
def spellSequence : List Segment → Text
  | [] => []
  | segment :: rest => segment.spell ++ spellSequence rest

/-- The text of the alternatives behind the first one, each with its `|`. -/
def spellOthers : List (List Segment) → Text
  | [] => []
  | alternative :: rest => '|' :: (spellSequence alternative ++ spellOthers rest)

end

mutual

/-- The characters and names of the segment are those that the grammar allows. -/
def IsProper : Segment → Prop
  | char c => isReserved c = false
  | escape _ => True
  | parameter name _ => IsName name
  | group first others _ => IsProperSequence first ∧ IsProperAll others

/-- All segments of the sequence are proper. -/
def IsProperSequence : List Segment → Prop
  | [] => True
  | segment :: rest => segment.IsProper ∧ IsProperSequence rest

/-- All segments of the alternatives are proper. -/
def IsProperAll : List (List Segment) → Prop
  | [] => True
  | alternative :: rest => IsProperSequence alternative ∧ IsProperAll rest

end

/-- The text that follows the segment does not go on with it. -/
def Stops : Segment → Text → Prop
  | parameter _ false, c :: _ => isNamePart c = false ∧ c ≠ '?'
  | group _ _ false, c :: _ => c ≠ '?'
  | _, _ => True

mutual

/-- Inside the segment every segment takes as much of the text as it can. -/
def IsGreedy : Segment → Prop
  | group first others _ => IsGreedySequence first ∧ IsGreedyAll others
  | _ => True

/-- Every segment of the sequence takes as much of the text as it can. -/
def IsGreedySequence : List Segment → Prop
  | [] => True
  | segment :: rest =>
    segment.IsGreedy ∧ segment.Stops (spellSequence rest) ∧ IsGreedySequence rest

/-- Every segment of the alternatives takes as much of the text as it can. -/
def IsGreedyAll : List (List Segment) → Prop
  | [] => True
  | alternative :: rest => IsGreedySequence alternative ∧ IsGreedyAll rest

end

/-! ## Derived texts are of the grammar -/

/-- The mark that is spelled is one that the grammar allows. -/
theorem isMark_optionalMark (optional : Bool) : IsMark (optionalMark optional) := by
  cases optional with
  | false => exact .inl rfl
  | true => exact .inr rfl

mutual

/-- A segment spells a text of the grammar. -/
theorem isSegment_spell : {segment : Segment} → segment.IsProper → IsSegment segment.spell
  | char c, h => .char h
  | escape c, _ => .escape
  | parameter name optional, h => by
    obtain ⟨first, rest, rfl, hfirst, hrest⟩ := h
    exact .parameter hfirst hrest (isMark_optionalMark optional)
  | group first others optional, h => by
    rw [spell, ← List.append_assoc]
    exact .group (isBody_spell (isSequence_spell h.1) h.2) (isMark_optionalMark optional)

theorem isSequence_spell : {segments : List Segment} → IsProperSequence segments →
    IsSequence (spellSequence segments)
  | [], _ => .nil
  | _ :: _, h => .cons (isSegment_spell h.1) (isSequence_spell h.2)

theorem isBody_spell {first : Text} : {others : List (List Segment)} → IsSequence first →
    IsProperAll others → IsBody (first ++ spellOthers others)
  | [], hfirst, _ => by
    rw [spellOthers, List.append_nil]
    exact .one hfirst
  | _ :: _, hfirst, h => .more hfirst (isBody_spell (isSequence_spell h.1) h.2)

end

/-! ## Texts of the grammar have a greedy derivation -/

/-- A greedy derivation of the text. -/
structure Derives (segments : List Segment) (text : Text) : Prop where
  proper : IsProperSequence segments
  greedy : IsGreedySequence segments
  spell : spellSequence segments = text

/-- A character that begins a segment other than a literal character goes on with none. -/
theorem stops_of_isReserved {segment : Segment} {c : Char} {rest : Text}
    (h : isReserved c = true) : segment.Stops (c :: rest) := by
  obtain ⟨-, hpart, hmark⟩ := Pending.isNamePart_of_isReserved h
  rcases segment with _ | _ | ⟨_, _ | _⟩ | ⟨_, _, _ | _⟩
  all_goals trivial

/-- A name with the literal characters and the mark that can go on with it. -/
theorem exists_derives_parameter {name text : Text} {segments : List Segment} (hname : IsName name)
    (h : Derives segments text) : ∃ others, Derives others (':' :: (name ++ text)) := by
  induction segments generalizing name text with
  | nil =>
    obtain rfl := h.spell
    exact ⟨[parameter name false], ⟨hname, trivial⟩, ⟨trivial, trivial, trivial⟩, by
      simp [spellSequence, Segment.spell, optionalMark]⟩
  | cons segment rest ih =>
    obtain ⟨hproper, hgreedy, rfl⟩ := h
    -- The parameter stays as it is, unless a character follows that goes on with it.
    have hapart (hstops : (parameter name false).Stops (spellSequence (segment :: rest))) :
        Derives (parameter name false :: segment :: rest)
          (':' :: (name ++ spellSequence (segment :: rest))) :=
      ⟨⟨hname, hproper⟩, ⟨trivial, hstops, hgreedy⟩, by
        simp [spellSequence, Segment.spell, optionalMark]⟩
    cases segment with
    | escape c => exact ⟨_, hapart (stops_of_isReserved rfl)⟩
    | parameter other optional => exact ⟨_, hapart (stops_of_isReserved rfl)⟩
    | group first others optional => exact ⟨_, hapart (stops_of_isReserved rfl)⟩
    | char c =>
      have hrest : Derives rest (spellSequence rest) := ⟨hproper.2, hgreedy.2.2, rfl⟩
      by_cases hpart : isNamePart c = true
      · -- The character belongs to the name, and the longer name may go on further.
        obtain ⟨first, tail, rfl, hfirst, htail⟩ := hname
        have hlonger : IsName (first :: (tail ++ [c])) :=
          ⟨first, tail ++ [c], rfl, hfirst, by simpa [or_imp, forall_and] using ⟨htail, hpart⟩⟩
        obtain ⟨others, hothers⟩ := ih hlonger hrest
        exact ⟨others, by simpa [spellSequence, Segment.spell] using hothers⟩
      · by_cases hmark : c = '?'
        · subst hmark
          exact ⟨parameter name true :: rest, ⟨hname, hproper.2⟩, ⟨trivial, trivial, hgreedy.2.2⟩,
            by simp [spellSequence, Segment.spell, optionalMark]⟩
        · exact ⟨_, hapart ⟨by simpa using hpart, hmark⟩⟩

/-- A group with the mark that can go on with it. -/
theorem exists_derives_group {first : List Segment} {others : List (List Segment)} {text : Text}
    {segments : List Segment} (hproper : (group first others false).IsProper)
    (hgreedy : (group first others false).IsGreedy) (h : Derives segments text) :
    ∃ longer,
      Derives longer ('(' :: (spellSequence first ++ (spellOthers others ++ ')' :: text))) := by
  obtain ⟨hsegments, hrest, rfl⟩ := h
  by_cases hmark : ∃ rest, segments = char '?' :: rest
  · obtain ⟨rest, rfl⟩ := hmark
    exact ⟨group first others true :: rest, ⟨hproper, hsegments.2⟩, ⟨hgreedy, trivial, hrest.2.2⟩,
      by simp [spellSequence, Segment.spell, optionalMark]⟩
  · have hstops : (group first others false).Stops (spellSequence segments) := by
      cases segments with
      | nil => trivial
      | cons segment rest =>
        cases segment with
        | char c =>
          intro hc
          exact hmark ⟨rest, by rw [hc]⟩
        | escape c => exact stops_of_isReserved rfl
        | parameter name optional => exact stops_of_isReserved rfl
        | group first others optional => exact stops_of_isReserved rfl
    exact ⟨group first others false :: segments, ⟨hproper, hsegments⟩, ⟨hgreedy, hstops, hrest⟩,
      by simp [spellSequence, Segment.spell, optionalMark]⟩

/-- An element with its mark, if it has one without the mark before every text. -/
theorem exists_derives_marked (element : Text) (optional : Segment) {mark rest : Text}
    {segments : List Segment} (hmark : IsMark mark) (hproper : optional.IsProper)
    (hgreedy : optional.IsGreedy) (hstops : ∀ text, optional.Stops text)
    (hspell : optional.spell = element ++ ['?'])
    (hbare : ∃ others, Derives others (element ++ rest)) (h : Derives segments rest) :
    ∃ others, Derives others (element ++ mark ++ rest) := by
  rcases hmark with rfl | rfl
  · simpa using hbare
  · obtain ⟨hsegments, hrest, rfl⟩ := h
    exact ⟨optional :: segments, ⟨hproper, hsegments⟩, ⟨hgreedy, hstops _, hrest⟩, by
      rw [spellSequence, hspell]⟩

mutual

/-- A text of the grammar has a greedy derivation. -/
theorem exists_derives : {text : Text} → IsSequence text → ∃ segments, Derives segments text
  | _, .nil => ⟨[], trivial, trivial, rfl⟩
  | _, .cons hsegment hrest => by
    obtain ⟨segments, hsegments⟩ := exists_derives hrest
    exact exists_derives_append hsegment hsegments

/-- A segment in front of a derived text. It may take a part of that text, which changes the
derivation. -/
theorem exists_derives_append {rest : Text} {segments : List Segment} : {text : Text} →
    IsSegment text → Derives segments rest → ∃ others, Derives others (text ++ rest)
  | _, @IsSegment.char c hc, ⟨hproper, hgreedy, hspell⟩ =>
    ⟨char c :: segments, ⟨hc, hproper⟩, ⟨trivial, trivial, hgreedy⟩, by
      rw [spellSequence, hspell]; rfl⟩
  | _, @IsSegment.escape c, ⟨hproper, hgreedy, hspell⟩ =>
    ⟨escape c :: segments, ⟨trivial, hproper⟩, ⟨trivial, trivial, hgreedy⟩, by
      rw [spellSequence, hspell]; rfl⟩
  | _, @IsSegment.parameter first name _ hfirst hname hmark, h => by
    have hproper : IsName (first :: name) := ⟨first, name, rfl, hfirst, hname⟩
    exact exists_derives_marked (':' :: first :: name) (parameter (first :: name) true) hmark
      hproper trivial (fun _ => trivial) rfl (exists_derives_parameter hproper h) h
  | _, .group hbody hmark, h => by
    obtain ⟨first, others, hproper, hgreedy, rfl⟩ := exists_body hbody
    have hbare := exists_derives_group hproper hgreedy h
    have hgroup := exists_derives_marked
      ('(' :: (spellSequence first ++ (spellOthers others ++ [')']))) (group first others true)
      hmark hproper hgreedy (fun _ => trivial) (by simp [Segment.spell, optionalMark])
      (by simpa using hbare) h
    simpa using hgroup

/-- The body of a group has a greedy derivation of each of its alternatives. -/
theorem exists_body : {text : Text} → IsBody text → ∃ first others,
    (group first others false).IsProper ∧ (group first others false).IsGreedy ∧
      spellSequence first ++ spellOthers others = text
  | _, .one halternative => by
    obtain ⟨first, hproper, hgreedy, rfl⟩ := exists_derives halternative
    exact ⟨first, [], ⟨hproper, trivial⟩, ⟨hgreedy, trivial⟩, by simp [spellOthers]⟩
  | _, .more halternative hrest => by
    obtain ⟨first, hproper, hgreedy, rfl⟩ := exists_derives halternative
    obtain ⟨second, others, hothers, hgreedyOthers, rfl⟩ := exists_body hrest
    exact ⟨first, second :: others, ⟨hproper, hothers⟩, ⟨hgreedy, hgreedyOthers⟩, by
      simp [spellOthers]⟩

end

/-- The texts of the grammar are those with a greedy derivation. -/
theorem isSequence_iff_exists_derives {text : Text} :
    IsSequence text ↔ ∃ segments, Derives segments text := by
  constructor
  · exact exists_derives
  · rintro ⟨segments, hproper, -, rfl⟩
    exact isSequence_spell hproper

/-! ## A text has one greedy derivation -/

/-- The text is at its end or goes on with what ends an alternative. -/
def IsEnd (text : Text) : Prop := ∀ c ∈ text.head?, c = ')' ∨ c = '|'

/-- The end of an alternative does not go on with a segment, so what stands behind it does not
matter. -/
theorem stops_append {segment : Segment} {text rest : Text} (h : segment.Stops text)
    (hend : IsEnd rest) : segment.Stops (text ++ rest) := by
  cases text with
  | cons c text =>
    rcases segment with _ | _ | ⟨_, _ | _⟩ | ⟨_, _, _ | _⟩
    all_goals exact h
  | nil =>
    cases rest with
    | nil => exact h
    | cons c rest =>
      obtain rfl | rfl := hend c rfl
      · exact stops_of_isReserved rfl
      · exact stops_of_isReserved rfl

theorem ne_of_isProper_char {c d : Char} (h : (char c).IsProper) (hd : isReserved d = true) :
    c ≠ d := by
  have hc : isReserved c = false := h
  rintro rfl
  rw [hc] at hd
  cases hd

/-- No segment begins with a `)` or a `|`. -/
theorem not_isEnd_spell_append {segment : Segment} (h : segment.IsProper) (rest : Text) :
    ¬ IsEnd (segment.spell ++ rest) := by
  intro hend
  cases segment with
  | char c =>
    rcases hend c rfl with hc | hc
    · exact ne_of_isProper_char h rfl hc
    · exact ne_of_isProper_char h rfl hc
  | escape c => exact absurd (hend '\\' rfl) (by decide)
  | parameter name optional => exact absurd (hend ':' rfl) (by decide)
  | group first others optional => exact absurd (hend '(' rfl) (by decide)

theorem isNamePart_of_isName {name : Text} (h : IsName name) : ∀ c ∈ name, isNamePart c = true := by
  obtain ⟨first, rest, rfl, hfirst, hrest⟩ := h
  exact List.forall_mem_cons.2 ⟨isNamePart_of_isNameStart hfirst, hrest⟩

/-- Two names that end where the text does not go on with them. -/
theorem eq_of_name_append_eq {name other rest left : Text} (hname : IsName name)
    (hother : IsName other) (hrest : ∀ c ∈ rest.head?, isNamePart c = false)
    (hleft : ∀ c ∈ left.head?, isNamePart c = false) (h : name ++ rest = other ++ left) :
    name = other ∧ rest = left := by
  have htake {name rest : Text} (hname : IsName name)
      (hrest : ∀ c ∈ rest.head?, isNamePart c = false) :
      (name ++ rest).takeWhile isNamePart = name := by
    rw [List.takeWhile_append_of_pos (isNamePart_of_isName hname)]
    cases rest with
    | nil => simp
    | cons c rest => simp [hrest c rfl]
  obtain rfl : name = other := by
    rw [← htake hname hrest, h, htake hother hleft]
  exact ⟨rfl, List.append_cancel_left h⟩

/-- Two marks, if no text without one goes on with a `?`. -/
theorem eq_of_mark_append_eq {optional other : Bool} {rest left : Text}
    (hrest : optional = false → '?' ∉ rest.head?) (hleft : other = false → '?' ∉ left.head?)
    (h : optionalMark optional ++ rest = optionalMark other ++ left) :
    optional = other ∧ rest = left := by
  cases optional with
  | false =>
    cases other with
    | false => exact ⟨rfl, h⟩
    | true =>
      obtain rfl : rest = '?' :: left := h
      exact absurd rfl (hrest rfl)
  | true =>
    cases other with
    | false =>
      obtain rfl : '?' :: rest = left := h
      exact absurd rfl (hleft rfl)
    | true => exact ⟨rfl, (List.cons.inj h).2⟩

theorem Stops.parameter_head {name rest : Text} {optional : Bool}
    (h : (parameter name optional).Stops rest) :
    (∀ c ∈ (optionalMark optional ++ rest).head?, isNamePart c = false) ∧
      (optional = false → '?' ∉ rest.head?) := by
  cases optional with
  | true => simp [optionalMark, show isNamePart '?' = false from rfl]
  | false =>
    cases rest with
    | nil => simp [optionalMark]
    | cons c rest =>
      have hstops : isNamePart c = false ∧ c ≠ '?' := h
      simpa [optionalMark] using hstops

theorem Stops.group_head {first : List Segment} {others : List (List Segment)} {rest : Text}
    {optional : Bool} (h : (group first others optional).Stops rest) :
    optional = false → '?' ∉ rest.head? := by
  rintro rfl
  cases rest with
  | nil => simp
  | cons c rest =>
    have hstops : c ≠ '?' := h
    simpa using hstops

theorem isEnd_spellOthers_append (others : List (List Segment)) (rest : Text) :
    IsEnd (spellOthers others ++ ')' :: rest) := by
  cases others <;> simp [IsEnd, spellOthers]

mutual

/-- Of two greedy segments at the start of a text, neither is longer. -/
theorem eq_of_spell_append_eq : {segment other : Segment} → {rest left : Text} →
    segment.IsProper → other.IsProper → segment.IsGreedy → other.IsGreedy →
    segment.Stops rest → other.Stops left → segment.spell ++ rest = other.spell ++ left →
    segment = other ∧ rest = left
  | char c, other, _, _, hproper, _, _, _, _, _, h => by
    cases other with
    | char d =>
      obtain ⟨rfl, rfl⟩ := List.cons.inj h
      exact ⟨rfl, rfl⟩
    | escape d => exact absurd (List.cons.inj h).1 (ne_of_isProper_char hproper rfl)
    | parameter name optional => exact absurd (List.cons.inj h).1 (ne_of_isProper_char hproper rfl)
    | group first others optional =>
      exact absurd (List.cons.inj h).1 (ne_of_isProper_char hproper rfl)
  | escape c, other, _, _, _, hother, _, _, _, _, h => by
    cases other with
    | escape d =>
      obtain ⟨rfl, rfl⟩ := List.cons.inj (List.cons.inj h).2
      exact ⟨rfl, rfl⟩
    | char d => exact absurd (List.cons.inj h).1.symm (ne_of_isProper_char hother rfl)
    | _ => simp [spell] at h
  | parameter name optional, other, rest, left, hproper, hother, _, _, hstops, hstopsOther, h => by
    cases other with
    | parameter second mark =>
      have htail : name ++ (optionalMark optional ++ rest) =
          second ++ (optionalMark mark ++ left) := by
        simpa [spell] using h
      obtain ⟨rfl, hmarks⟩ := eq_of_name_append_eq hproper hother hstops.parameter_head.1
        hstopsOther.parameter_head.1 htail
      obtain ⟨rfl, rfl⟩ := eq_of_mark_append_eq hstops.parameter_head.2
        hstopsOther.parameter_head.2 hmarks
      exact ⟨rfl, rfl⟩
    | char d => exact absurd (List.cons.inj h).1.symm (ne_of_isProper_char hother rfl)
    | _ => simp [spell] at h
  | group first others optional, other, rest, left, hproper, hother, hgreedy, hgreedyOther, hstops,
    hstopsOther, h => by
    cases other with
    | group second more mark =>
      have htail : spellSequence first ++
            (spellOthers others ++ ')' :: (optionalMark optional ++ rest)) =
          spellSequence second ++ (spellOthers more ++ ')' :: (optionalMark mark ++ left)) := by
        simpa [spell] using h
      obtain ⟨rfl, hmore⟩ := eq_of_spellSequence_append_eq hproper.1 hother.1 hgreedy.1
        hgreedyOther.1 (isEnd_spellOthers_append _ _) (isEnd_spellOthers_append _ _) htail
      obtain ⟨rfl, hmarks⟩ := eq_of_spellOthers_append_eq hproper.2 hother.2 hgreedy.2
        hgreedyOther.2 hmore
      obtain ⟨rfl, rfl⟩ := eq_of_mark_append_eq hstops.group_head hstopsOther.group_head hmarks
      exact ⟨rfl, rfl⟩
    | char d => exact absurd (List.cons.inj h).1.symm (ne_of_isProper_char hother rfl)
    | _ => simp [spell] at h

/-- Nor of two greedy sequences that end where an alternative may. -/
theorem eq_of_spellSequence_append_eq : {segments others : List Segment} → {rest left : Text} →
    IsProperSequence segments → IsProperSequence others → IsGreedySequence segments →
    IsGreedySequence others → IsEnd rest → IsEnd left →
    spellSequence segments ++ rest = spellSequence others ++ left →
    segments = others ∧ rest = left
  | [], [], _, _, _, _, _, _, _, _, h => ⟨rfl, h⟩
  | [], other :: others, rest, left, _, hother, _, _, hrest, _, h => by
    have htext : rest = other.spell ++ (spellSequence others ++ left) := by
      rw [← List.append_assoc]
      exact h
    -- The one sequence has ended, but no segment begins with what ends it.
    rw [htext] at hrest
    exact absurd hrest (not_isEnd_spell_append hother.1 _)
  | segment :: segments, [], rest, left, hsegment, _, _, _, _, hleft, h => by
    have htext : segment.spell ++ (spellSequence segments ++ rest) = left := by
      rw [← List.append_assoc]
      exact h
    rw [← htext] at hleft
    exact absurd hleft (not_isEnd_spell_append hsegment.1 _)
  | segment :: segments, other :: others, rest, left, hsegment, hother, hgreedy, hgreedyOther,
    hrest, hleft, h => by
    rw [spellSequence, spellSequence, List.append_assoc, List.append_assoc] at h
    obtain ⟨rfl, hmore⟩ := eq_of_spell_append_eq hsegment.1 hother.1 hgreedy.1 hgreedyOther.1
      (stops_append hgreedy.2.1 hrest) (stops_append hgreedyOther.2.1 hleft) h
    obtain ⟨rfl, rfl⟩ := eq_of_spellSequence_append_eq hsegment.2 hother.2 hgreedy.2.2
      hgreedyOther.2.2 hrest hleft hmore
    exact ⟨rfl, rfl⟩

theorem eq_of_spellOthers_append_eq : {others more : List (List Segment)} → {rest left : Text} →
    IsProperAll others → IsProperAll more → IsGreedyAll others → IsGreedyAll more →
    spellOthers others ++ ')' :: rest = spellOthers more ++ ')' :: left →
    others = more ∧ rest = left
  | [], [], _, _, _, _, _, _, h => ⟨rfl, (List.cons.inj h).2⟩
  | [], _ :: _, _, _, _, _, _, _, h => absurd (List.cons.inj h).1 (by decide)
  | _ :: _, [], _, _, _, _, _, _, h => absurd (List.cons.inj h).1 (by decide)
  | alternative :: others, other :: more, rest, left, hfirst, hsecond, hgreedy, hgreedyOther,
    h => by
    have htail : spellSequence alternative ++ (spellOthers others ++ ')' :: rest) =
        spellSequence other ++ (spellOthers more ++ ')' :: left) := by
      simpa [spellOthers] using h
    obtain ⟨rfl, hmore⟩ := eq_of_spellSequence_append_eq hfirst.1 hsecond.1 hgreedy.1
      hgreedyOther.1 (isEnd_spellOthers_append _ _) (isEnd_spellOthers_append _ _) htail
    obtain ⟨rfl, rfl⟩ := eq_of_spellOthers_append_eq hfirst.2 hsecond.2 hgreedy.2 hgreedyOther.2
      hmore
    exact ⟨rfl, rfl⟩

end

/-- A text has one greedy derivation. -/
theorem Derives.unique {segments others : List Segment} {text : Text} (h : Derives segments text)
    (hothers : Derives others text) : segments = others := by
  have heq : spellSequence segments ++ [] = spellSequence others ++ [] := by
    rw [h.spell, hothers.spell]
  have hend : IsEnd [] := by simp [IsEnd]
  exact (eq_of_spellSequence_append_eq h.proper hothers.proper h.greedy hothers.greedy hend hend
    heq).1

end Segment

end RoutePattern
