/-!
# Texts

Patterns, paths and capture names are texts: lists of characters. Lengths and offsets that a
caller sees are bytes of UTF-8 (`Text.byteLength`); inside the library a place in a text is the
part of the text that follows it, so no offset can fall inside a character.
-/

namespace RoutePattern

/-- The characters of a pattern, of a path or of a name, in order. -/
abbrev Text := List Char

namespace Text

/-- The number of bytes of `t` in UTF-8. -/
def byteLength : (t : Text) → Nat
  | [] => 0
  | c :: t => c.utf8Size + byteLength t

@[simp] theorem byteLength_nil : byteLength [] = 0 := rfl

@[simp] theorem byteLength_cons (c : Char) (t : Text) :
    byteLength (c :: t) = c.utf8Size + byteLength t := rfl

@[simp] theorem byteLength_append (s t : Text) :
    byteLength (s ++ t) = byteLength s + byteLength t := by
  induction s with
  | nil => simp
  | cons c s ih => simp [ih, Nat.add_assoc]

theorem length_le_byteLength (t : Text) : t.length ≤ t.byteLength := by
  induction t with
  | nil => simp
  | cons c t ih =>
    have := c.utf8Size_pos
    simp only [List.length_cons, byteLength_cons]
    omega

/-- `t` without the run of `c` at its end. -/
def dropTrailing (c : Char) (t : Text) : Text :=
  (t.reverse.dropWhile (· == c)).reverse

/-- `isPrefixOf?` gives what stands behind a beginning. -/
theorem isPrefixOf?_eq_some_iff {lead t rest : Text} :
    lead.isPrefixOf? t = some rest ↔ t = lead ++ rest := by
  induction lead generalizing t with
  | nil =>
    show some t = some rest ↔ t = rest
    rw [Option.some.injEq]
  | cons c lead ih =>
    cases t with
    | nil => exact iff_of_false nofun nofun
    | cons d t =>
      show (if (c == d) = true then lead.isPrefixOf? t else none) = some rest ↔
        d :: t = c :: (lead ++ rest)
      rw [List.cons_eq_cons]
      by_cases h : c = d
      · rw [if_pos (beq_iff_eq.2 h), ih]
        exact ⟨fun ht => ⟨h.symm, ht⟩, And.right⟩
      · rw [if_neg (fun he => h (beq_iff_eq.1 he))]
        exact iff_of_false nofun fun ht => h ht.1.symm

/-- The part of `whole` before its tail `rest`. -/
def before (whole rest : Text) : Text := whole.take (whole.length - rest.length)

@[simp] theorem before_append (s rest : Text) : before (s ++ rest) rest = s := by
  simp [before]

/-- `t` on the right of a field of `width` characters. -/
def padLeft (width : Nat) (t : Text) : Text :=
  List.replicate (width - t.length) ' ' ++ t

/-- The texts with the separator between each two of them. -/
def join (separator : Text) (ts : List Text) : Text := (ts.intersperse separator).flatten

/-- The decimal digits of `n`. -/
def ofNat (n : Nat) : Text := n.repr.toList

/-- Texts are ordered by their first different character, by code point; a proper beginning
comes first. This is also the order of their bytes in UTF-8. -/
def le : (s t : Text) → Bool
  | [], _ => true
  | _ :: _, [] => false
  | c :: s, d :: t => c.toNat < d.toNat || (c == d && le s t)

/-- The texts of a list in order, each once. -/
def sortedDistinct (ts : List Text) : List Text := (ts.mergeSort le).eraseReps

end Text

end RoutePattern
