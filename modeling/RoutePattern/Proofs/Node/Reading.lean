import RoutePattern.Proofs.Node.Derivation
import RoutePattern.Proofs.Node.Parse

/-!
# Reading a derivation

`Draft.addSequence` adds what a derivation stands for to a draft, a group as a whole: no group is
ever open. Reading the text of a greedy derivation does the same (`readText_spellSequence`), so a
pattern is read as the tree of its greedy derivation (`readTree_of_derives`).
-/

namespace RoutePattern

open Node Segment

/-! ## Lexemes at the beginning of a text -/

namespace Draft

/-- The draft after a text that begins at `offset`, with nothing left open before it. -/
def readText (draft : Draft) (offset : Nat) (text : Text) : Except (Nat × Misspelling) Draft :=
  draft.readAll (lexemesFrom .nothing offset text)

theorem readText_nil (draft : Draft) (offset : Nat) : draft.readText offset [] = .ok draft := rfl

theorem readText_char {c : Char} (hc : isReserved c = false) (draft : Draft) (offset : Nat)
    (rest : Text) : draft.readText offset (c :: rest) =
      (draft.addChar c).readText (offset + c.utf8Size) rest := by
  rw [readText, lexemesFrom, Pending.step, start_of_not_isReserved hc]
  rfl

theorem readText_escape (draft : Draft) (offset : Nat) (c : Char) (rest : Text) :
    draft.readText offset ('\\' :: c :: rest) =
      (draft.addChar c).readText (offset + ('\\'.utf8Size + c.utf8Size)) rest := by
  rw [← Nat.add_assoc]
  rfl

theorem readText_opening (draft : Draft) (offset : Nat) (rest : Text) :
    draft.readText offset ('(' :: rest) =
      (draft.openGroup offset).readText (offset + '('.utf8Size) rest := rfl

/-- The lexeme that is left open is complete before a text that does not go on with it. -/
theorem lexemesFrom_of_close {pending : Pending} {text : Text}
    (h : ∀ c ∈ text.head?, ∀ offset, pending.step offset c = pending.close offset c)
    (offset : Nat) :
    lexemesFrom pending offset text = pending.finish ++ lexemesFrom .nothing offset text := by
  cases text with
  | nil => exact (List.append_nil _).symm
  | cons c rest =>
    rw [lexemesFrom, h c rfl offset, Pending.close, List.append_assoc]
    rfl

/-- A closing parenthesis takes the mark behind it. -/
theorem lexemesFrom_closing {place offset : Nat} {optional : Bool} {rest : Text}
    (h : optional = false → '?' ∉ rest.head?) :
    lexemesFrom (.closing place) offset (optionalMark optional ++ rest) =
      .closing place optional ::
        lexemesFrom .nothing (offset + (optionalMark optional).byteLength) rest := by
  cases optional with
  | true => rfl
  | false =>
    refine lexemesFrom_of_close (fun c hc offset => ?_) offset
    have hne : c ≠ '?' := fun he => h rfl (he ▸ hc)
    rw [Pending.step, if_neg hne]

/-- A name takes the characters that it may have. -/
theorem lexemesFrom_name {place offset : Nat} {first : Char} {read part : Text} {rest : Text}
    (hpart : ∀ c ∈ part, isNamePart c = true) :
    lexemesFrom (.name place (first :: read)) offset (part ++ rest) =
      lexemesFrom (.name place (first :: (read ++ part))) (offset + part.byteLength) rest := by
  induction part generalizing read offset with
  | nil => simp
  | cons c part ih =>
    rw [List.forall_mem_cons] at hpart
    rw [List.cons_append, lexemesFrom, Pending.step_name_of_isNamePart hpart.1, List.nil_append,
      ih hpart.2, List.append_assoc, Text.byteLength_cons, ← Nat.add_assoc]
    rfl

/-- A name that ends there takes the mark behind it. -/
theorem lexemesFrom_named {place offset : Nat} {first : Char} {read : Text} {optional : Bool}
    {rest : Text} (hpart : ∀ c ∈ (optionalMark optional ++ rest).head?, isNamePart c = false)
    (hmark : optional = false → '?' ∉ rest.head?) :
    lexemesFrom (.name place (first :: read)) offset (optionalMark optional ++ rest) =
      .parameter (first :: read) optional ::
        lexemesFrom .nothing (offset + (optionalMark optional).byteLength) rest := by
  cases optional with
  | true => rfl
  | false =>
    refine lexemesFrom_of_close (fun c hc offset => ?_) offset
    have hne : c ≠ '?' := fun he => hmark rfl (he ▸ hc)
    rw [Pending.step, if_neg (by simp [hpart c hc]), if_neg hne]

theorem readText_parameter {name rest : Text} {optional : Bool} (hname : IsName name)
    (hstops : (Segment.parameter name optional).Stops rest) (draft : Draft) (offset : Nat) :
    draft.readText offset ((Segment.parameter name optional).spell ++ rest) =
      (draft.addParameter name optional).readText
        (offset + (Segment.parameter name optional).spell.byteLength) rest := by
  obtain ⟨first, part, rfl, hfirst, hpart⟩ := hname
  have hlexemes : lexemesFrom .nothing offset (':' :: first :: (part ++ (optionalMark optional ++
        rest))) = .parameter (first :: part) optional :: lexemesFrom .nothing
          (offset + (Segment.parameter (first :: part) optional).spell.byteLength) rest := by
    have hcolon : lexemesFrom .nothing offset (':' :: first :: (part ++ (optionalMark optional ++
          rest))) = lexemesFrom (.name offset []) (offset + ':'.utf8Size)
            (first :: (part ++ (optionalMark optional ++ rest))) := rfl
    rw [hcolon, lexemesFrom, Pending.step_name_nil hfirst, List.nil_append, lexemesFrom_name hpart,
      lexemesFrom_named hstops.parameter_head.1 hstops.parameter_head.2]
    simp [spell, Nat.add_assoc]
  rw [spell, List.cons_append, List.append_assoc, List.cons_append, readText, hlexemes]
  rfl

/-- A `|` and what is read behind it. -/
theorem readText_bar (lastId : Nat) (nodes : List Node) (group : OpenGroup)
    (outer : List OpenGroup) (offset : Nat) (rest : Text) :
    (Draft.mk lastId nodes (group :: outer)).readText offset ('|' :: rest) =
      (Draft.mk (lastId + 1) []
        ({ group with finished := nodes :: group.finished } :: outer)).readText
          (offset + '|'.utf8Size) rest := rfl

/-- A `)` and what is read behind it. -/
theorem readText_closing {optional : Bool} {rest : Text} (h : optional = false → '?' ∉ rest.head?)
    (lastId : Nat) (nodes : List Node) (group : OpenGroup) (outer : List OpenGroup)
    (offset : Nat) :
    (Draft.mk lastId nodes (group :: outer)).readText offset
        (')' :: (optionalMark optional ++ rest)) =
      (Draft.mk (fillAll lastId (nodes :: group.finished).reverse).2
        (.group group.id (fillAll lastId (nodes :: group.finished).reverse).1 optional ::
          group.before) outer).readText
        (offset + (')'.utf8Size + (optionalMark optional).byteLength)) rest := by
  have hlexemes : lexemesFrom .nothing offset (')' :: (optionalMark optional ++ rest)) =
      .closing offset optional ::
        lexemesFrom .nothing (offset + (')'.utf8Size + (optionalMark optional).byteLength))
          rest := by
    rw [← Nat.add_assoc]
    exact lexemesFrom_closing h
  rw [readText, hlexemes]
  rfl

/-! ## A derivation added to a draft -/

mutual

/-- The draft with one more segment. The alternatives of a group are collected in drafts of their
own, which begin with the next free id. -/
def addSegment (draft : Draft) : Segment → Draft
  | .char c => draft.addChar c
  | .escape c => draft.addChar c
  | .parameter name optional => draft.addParameter name optional
  | .group first others optional =>
    let body := addSequence ⟨draft.lastId + 1, [], []⟩ first
    let (lastId, more) := addOthers body.lastId others
    let (alternatives, lastId) := fillAll lastId (body.nodes :: more)
    { draft with lastId, nodes := .group (draft.lastId + 1) alternatives optional :: draft.nodes }

/-- The draft with the segments of a sequence. -/
def addSequence (draft : Draft) : List Segment → Draft
  | [] => draft
  | segment :: rest => addSequence (addSegment draft segment) rest

/-- The last id after the alternatives behind the first one, and the nodes of each of them, last
node first. A `|` takes an id. -/
def addOthers (lastId : Nat) : List (List Segment) → Nat × List (List Node)
  | [] => (lastId, [])
  | alternative :: rest =>
    let body := addSequence ⟨lastId + 1, [], []⟩ alternative
    let (lastId, more) := addOthers body.lastId rest
    (lastId, body.nodes :: more)

end

/-- The draft with other open groups. -/
def withGroups (draft : Draft) (groups : List OpenGroup) : Draft := { draft with groups }

/-- What is read into a draft does not look at the open groups. -/
theorem addSegment_withGroups (draft : Draft) (groups : List OpenGroup) (segment : Segment) :
    (draft.withGroups groups).addSegment segment =
      (draft.addSegment segment).withGroups groups := by
  have hchar (c : Char) :
      (draft.withGroups groups).addChar c = (draft.addChar c).withGroups groups := by
    unfold addChar withGroups
    dsimp only
    split <;> rfl
  cases segment with
  | char c => exact hchar c
  | escape c => exact hchar c
  | parameter name optional => rfl
  | group first others optional => rfl

theorem addSequence_withGroups (draft : Draft) (groups : List OpenGroup)
    (segments : List Segment) : (draft.withGroups groups).addSequence segments =
      (draft.addSequence segments).withGroups groups := by
  induction segments generalizing draft with
  | nil => rfl
  | cons segment segments ih => rw [addSequence, addSequence, addSegment_withGroups, ih]

mutual

/-- Reading the text of a segment adds the segment to the draft. -/
theorem readText_spell : {segment : Segment} → {rest : Text} → segment.IsProper →
    segment.IsGreedy → segment.Stops rest → (draft : Draft) → (offset : Nat) →
    draft.readText offset (segment.spell ++ rest) =
      (draft.addSegment segment).readText (offset + segment.spell.byteLength) rest
  | .char c, rest, hproper, _, _, draft, offset => readText_char hproper draft offset rest
  | .escape c, rest, _, _, _, draft, offset => readText_escape draft offset c rest
  | .parameter name optional, rest, hproper, _, hstops, draft, offset =>
    readText_parameter hproper hstops draft offset
  | .group first others optional, rest, hproper, hgreedy, hstops, draft, offset => by
    have htext : (Segment.group first others optional).spell ++ rest =
        '(' :: (spellSequence first ++
        (spellOthers others ++ ')' :: (optionalMark optional ++ rest))) := by
      simp [spell]
    have hopen : draft.openGroup offset = (Draft.mk (draft.lastId + 1) [] []).withGroups
        (⟨offset, draft.lastId + 1, draft.nodes, []⟩ :: draft.groups) := rfl
    -- The first alternative is read into a draft of its own, with the group left open around it.
    rw [htext, readText_opening, hopen, readText_spellSequence hproper.1 hgreedy.1
      (isEnd_spellOthers_append _ _), addSequence_withGroups, withGroups,
      readText_spellOthers hproper.2 hgreedy.2 hstops.group_head]
    simp [addSegment, spell, Nat.add_assoc]

/-- Reading the text of a sequence adds its segments to the draft. -/
theorem readText_spellSequence : {segments : List Segment} → {rest : Text} →
    IsProperSequence segments → IsGreedySequence segments → IsEnd rest → (draft : Draft) →
    (offset : Nat) → draft.readText offset (spellSequence segments ++ rest) =
      (draft.addSequence segments).readText (offset + (spellSequence segments).byteLength) rest
  | [], _, _, _, _, _, _ => rfl
  | segment :: segments, rest, hproper, hgreedy, hend, draft, offset => by
    rw [spellSequence, List.append_assoc, readText_spell hproper.1 hgreedy.1
      (stops_append hgreedy.2.1 hend), readText_spellSequence hproper.2 hgreedy.2.2 hend,
      addSequence, Text.byteLength_append, Nat.add_assoc]

/-- The rest of a group behind an alternative that is read. -/
theorem readText_spellOthers : {others : List (List Segment)} → {rest : Text} →
    {optional : Bool} → IsProperAll others → IsGreedyAll others →
    (optional = false → '?' ∉ rest.head?) → (lastId : Nat) → (nodes : List Node) →
    (opened : OpenGroup) → (outer : List OpenGroup) → (offset : Nat) →
    (Draft.mk lastId nodes (opened :: outer)).readText offset
        (spellOthers others ++ ')' :: (optionalMark optional ++ rest)) =
      (Draft.mk
        (fillAll (addOthers lastId others).1
          ((nodes :: opened.finished).reverse ++ (addOthers lastId others).2)).2
        (.group opened.id (fillAll (addOthers lastId others).1
          ((nodes :: opened.finished).reverse ++ (addOthers lastId others).2)).1 optional ::
          opened.before) outer).readText
        (offset + ((spellOthers others).byteLength +
          (')'.utf8Size + (optionalMark optional).byteLength))) rest
  | [], _, _, _, _, hmark, lastId, nodes, opened, outer, offset => by
    rw [spellOthers, List.nil_append, readText_closing hmark, addOthers, List.append_nil,
      Text.byteLength_nil, Nat.zero_add]
  | alternative :: others, rest, _, hproper, hgreedy, hmark, lastId, nodes, opened, outer,
    offset => by
    have hbody : Draft.mk (lastId + 1) [] ({ opened with finished := nodes :: opened.finished } ::
        outer) = (Draft.mk (lastId + 1) [] []).withGroups
          ({ opened with finished := nodes :: opened.finished } :: outer) := rfl
    rw [spellOthers, List.cons_append, List.append_assoc, readText_bar, hbody,
      readText_spellSequence hproper.1 hgreedy.1 (isEnd_spellOthers_append _ _),
      addSequence_withGroups, withGroups, readText_spellOthers hproper.2 hgreedy.2 hmark]
    simp [addOthers, Nat.add_assoc]

end

end Draft

theorem readTree_eq_bind (pattern : Text) :
    readTree pattern = Draft.empty.readText 0 pattern >>= Draft.finish := by
  have hlexemes : Draft.empty.readText 0 pattern = Draft.empty.readAll (lexemes pattern) := rfl
  rw [readTree, hlexemes]
  cases Draft.empty.readAll (lexemes pattern) <;> rfl

/-- A pattern is read as the tree of its greedy derivation. -/
theorem readTree_of_derives {segments : List Segment} {pattern : Text}
    (h : Derives segments pattern) : readTree pattern =
      .ok (Draft.filled (Draft.empty.addSequence segments).lastId
        (Draft.empty.addSequence segments).nodes).1 := by
  have hread : Draft.empty.readText 0 pattern = .ok (Draft.empty.addSequence segments) := by
    have hend : IsEnd [] := by simp [IsEnd]
    have htext := Draft.readText_spellSequence h.proper h.greedy hend Draft.empty 0
    rw [List.append_nil, h.spell, Draft.readText_nil] at htext
    exact htext
  have hgroups : (Draft.empty.addSequence segments).groups = [] := by
    have hempty : Draft.empty = Draft.empty.withGroups [] := rfl
    rw [hempty, Draft.addSequence_withGroups]
    rfl
  have hfinish : (Draft.empty.addSequence segments).finish =
      .ok (Draft.filled (Draft.empty.addSequence segments).lastId
        (Draft.empty.addSequence segments).nodes).1 := by
    rw [Draft.finish, hgroups]
  rw [readTree_eq_bind, hread]
  exact hfinish

end RoutePattern
