import Mathlib.Data.List.Induction
import RoutePattern.Proofs.Node.Reading

/-!
# Patterns read in pieces

Reading one text behind another is reading the first and going on with the second
(`readText_append`), unless the first leaves something open that the second goes on with: a `\` that
escapes nothing, a name, or a `)` before a `?`. Of a `\` it is the number at the end that counts
(`isEscape_after_iff`).
-/

namespace RoutePattern

/-- The text ends in a `\` that escapes nothing: an odd number of them stands at its end. -/
def EndsInEscape (text : Text) : Prop := (text.reverse.takeWhile (· == '\\')).length % 2 = 1

instance (text : Text) : Decidable (EndsInEscape text) :=
  inferInstanceAs (Decidable (_ = _))

theorem not_endsInEscape_nil : ¬ EndsInEscape [] := by
  simp [EndsInEscape]

theorem endsInEscape_concat_iff {text : Text} {c : Char} :
    EndsInEscape (text ++ [c]) ↔ c = '\\' ∧ ¬ EndsInEscape text := by
  rw [EndsInEscape, EndsInEscape, List.reverse_append, List.reverse_singleton,
    List.singleton_append, List.takeWhile_cons]
  by_cases h : c = '\\'
  · simp [h]
    omega
  · simp [h]

namespace Pending

/-- Whether a `\` waits for the character that it escapes. -/
def isEscape : Pending → Bool
  | escape _ => true
  | _ => false

/-- What is left open behind a text that begins at `offset`. -/
def after (pending : Pending) (offset : Nat) : Text → Pending
  | [] => pending
  | c :: rest => (pending.step offset c).2.after (offset + c.utf8Size) rest

theorem after_concat (pending : Pending) (offset : Nat) (text : Text) (c : Char) :
    pending.after offset (text ++ [c]) =
      ((pending.after offset text).step (offset + text.byteLength) c).2 := by
  induction text generalizing pending offset with
  | nil => rfl
  | cons d text ih =>
    rw [List.cons_append, after, ih, after, Text.byteLength_cons, Nat.add_assoc]

/-- A character that goes on with nothing completes what is left open, unless it is escaped. -/
theorem step_eq_close {pending : Pending} {offset : Nat} {c : Char}
    (hescape : pending.isEscape = false) (hpart : isNamePart c = false) (hmark : c ≠ '?') :
    pending.step offset c = pending.close offset c := by
  have hstart : ¬ isNameStart c = true := fun h => by simp [isNamePart_of_isNameStart h] at hpart
  cases pending with
  | nothing => rfl
  | escape place => cases hescape
  | closing place => rw [step, if_neg hmark]
  | name place read =>
    cases read with
    | nil => rw [step, if_neg hstart]
    | cons first read => rw [step, if_neg (by simp [hpart]), if_neg hmark]

theorem isEscape_start (offset : Nat) (c : Char) :
    (start offset c).2.isEscape = decide (c = '\\') := by
  unfold start
  split <;> simp_all [isEscape]

/-- Behind a character a `\` waits if the character is one that is not escaped itself. -/
theorem isEscape_step (pending : Pending) (offset : Nat) (c : Char) :
    (pending.step offset c).2.isEscape = (decide (c = '\\') && !pending.isEscape) := by
  have hclose : (pending.close offset c).2.isEscape = decide (c = '\\') := isEscape_start offset c
  cases pending with
  | nothing => exact (isEscape_start offset c).trans (Bool.and_true _).symm
  | escape place => simp [step, isEscape]
  | closing place =>
    rw [step]
    split
    · next hmark => simp [hmark, isEscape]
    · simpa [isEscape] using hclose
  | name place read =>
    have hname (h : isNamePart c = true) : c ≠ '\\' := by
      rintro rfl
      cases h
    cases read with
    | nil =>
      rw [step]
      split
      · next hstart => simp [isEscape, hname (isNamePart_of_isNameStart hstart)]
      · simpa [isEscape] using hclose
    | cons first read =>
      rw [step]
      split
      · next hpart => simp [isEscape, hname hpart]
      · split
        · next hmark => simp [hmark, isEscape]
        · simpa [isEscape] using hclose

theorem isEscape_after_iff (text : Text) :
    (nothing.after 0 text).isEscape = true ↔ EndsInEscape text := by
  induction text using List.reverseRecOn with
  | nil => simp [after, isEscape, not_endsInEscape_nil]
  | append_singleton text c ih =>
    rw [after_concat, isEscape_step, endsInEscape_concat_iff, ← ih]
    simp

end Pending

open Pending

/-- The lexemes of two texts are those of each, if the second one begins with a character that goes
on with nothing. -/
theorem lexemesFrom_append {pending : Pending} {offset : Nat} {text rest : Text}
    (hescape : (pending.after offset text).isEscape = false)
    (hrest : ∀ c ∈ rest.head?, isNamePart c = false ∧ c ≠ '?') :
    lexemesFrom pending offset (text ++ rest) = lexemesFrom pending offset text ++
      lexemesFrom .nothing (offset + text.byteLength) rest := by
  induction text generalizing pending offset with
  | nil =>
    refine Draft.lexemesFrom_of_close (fun c hc place => ?_) offset
    exact step_eq_close hescape (hrest c hc).1 (hrest c hc).2
  | cons c text ih =>
    rw [List.cons_append, lexemesFrom, ih hescape, lexemesFrom, List.append_assoc,
      Text.byteLength_cons, Nat.add_assoc]

namespace Draft

theorem readAll_append (draft : Draft) (lexemes others : List Lexeme) :
    draft.readAll (lexemes ++ others) =
      draft.readAll lexemes >>= fun next => next.readAll others := by
  induction lexemes generalizing draft with
  | nil => rfl
  | cons lexeme lexemes ih =>
    rw [List.cons_append, readAll, readAll]
    split
    · exact ih _
    · rfl

/-- A text that does not end in a `\` that escapes nothing is read, and then what follows it, if
that begins with a character that goes on with nothing. -/
theorem readText_append {text rest : Text} (hescape : ¬ EndsInEscape text)
    (hrest : ∀ c ∈ rest.head?, isNamePart c = false ∧ c ≠ '?') (draft : Draft) :
    draft.readText 0 (text ++ rest) =
      draft.readText 0 text >>= fun next => next.readText text.byteLength rest := by
  rw [← isEscape_after_iff, Bool.not_eq_true] at hescape
  rw [readText, lexemesFrom_append hescape hrest, readAll_append, Nat.zero_add]
  rfl

/-- The last lexemes of a text are those of what it leaves open. -/
theorem exists_lexemesFrom_eq (pending : Pending) (offset : Nat) (text : Text) :
    ∃ lexemes, lexemesFrom pending offset text = lexemes ++ (pending.after offset text).finish := by
  induction text generalizing pending offset with
  | nil => exact ⟨[], rfl⟩
  | cons c text ih =>
    obtain ⟨lexemes, hlexemes⟩ := ih (pending.step offset c).2 (offset + c.utf8Size)
    refine ⟨(pending.step offset c).1 ++ lexemes, ?_⟩
    rw [lexemesFrom, hlexemes, after, List.append_assoc]

/-- What is read does not end in a `\` that escapes nothing. -/
theorem not_endsInEscape_of_readText {text : Text} {draft : Draft}
    (h : Draft.empty.readText 0 text = .ok draft) : ¬ EndsInEscape text := by
  rw [← isEscape_after_iff]
  intro hescape
  obtain ⟨lexemes, hlexemes⟩ := exists_lexemesFrom_eq .nothing 0 text
  cases hafter : Pending.nothing.after 0 text with
  | escape place =>
    rw [readText, hlexemes, readAll_append, bind_eq_ok_iff, hafter] at h
    obtain ⟨last, -, hlast⟩ := h
    cases hlast
  | nothing => rw [hafter] at hescape; cases hescape
  | closing place => rw [hafter] at hescape; cases hescape
  | name place read => rw [hafter] at hescape; cases hescape

end Draft

end RoutePattern
