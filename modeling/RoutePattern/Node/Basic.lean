import RoutePattern.Text.Basic

/-!
# Pattern trees

A pattern is a sequence of nodes: literal text, parameters, and groups of alternatives, each of
which is a sequence again. Every node carries an id; the ids of a tree that was read from a
pattern are different from each other and at least 1, but the type does not ask for it, and the
compiler accepts any ids.

The functions on trees come in threes, for a node, for a sequence and for the alternatives of a
group, and recurse on the tree itself.
-/

namespace RoutePattern

/-- An element of a pattern. -/
inductive Node where
  /-- Matches exactly `text`. -/
  | literal (id : Nat) (text : Text)
  /-- Matches a non-empty text and records it under `name`; if `optional`, it may be left out. -/
  | parameter (id : Nat) (name : Text) (optional : Bool)
  /-- Matches what one of the alternatives matches, the earlier one first; if `optional`, it may
  be left out. -/
  | group (id : Nat) (alternatives : List (List Node)) (optional : Bool)
  /-- A `|` between two alternatives. A tree that was read from a pattern holds none. -/
  | separator (id : Nat)
deriving Repr

namespace Node

mutual

/-- Whether two nodes are equal, ids included. -/
def decEq : (m n : Node) → Decidable (m = n)
  | literal i s, literal j t => decidable_of_iff (i = j ∧ s = t) (by simp)
  | parameter i s a, parameter j t b => decidable_of_iff (i = j ∧ s = t ∧ a = b) (by simp)
  | group i s a, group j t b =>
    have := decEqAlternatives s t
    decidable_of_iff (i = j ∧ s = t ∧ a = b) (by simp)
  | separator i, separator j => decidable_of_iff (i = j) (by simp)
  | literal .., parameter .. => isFalse nofun
  | literal .., group .. => isFalse nofun
  | literal .., separator .. => isFalse nofun
  | parameter .., literal .. => isFalse nofun
  | parameter .., group .. => isFalse nofun
  | parameter .., separator .. => isFalse nofun
  | group .., literal .. => isFalse nofun
  | group .., parameter .. => isFalse nofun
  | group .., separator .. => isFalse nofun
  | separator .., literal .. => isFalse nofun
  | separator .., parameter .. => isFalse nofun
  | separator .., group .. => isFalse nofun

/-- Whether two sequences are equal, ids included. -/
def decEqSequence : (s t : List Node) → Decidable (s = t)
  | [], [] => isTrue rfl
  | [], _ :: _ => isFalse nofun
  | _ :: _, [] => isFalse nofun
  | m :: s, n :: t =>
    have := decEq m n
    have := decEqSequence s t
    decidable_of_iff (m = n ∧ s = t) (by simp)

/-- Whether the alternatives of two groups are equal, ids included. -/
def decEqAlternatives : (s t : List (List Node)) → Decidable (s = t)
  | [], [] => isTrue rfl
  | [], _ :: _ => isFalse nofun
  | _ :: _, [] => isFalse nofun
  | a :: s, b :: t =>
    have := decEqSequence a b
    have := decEqAlternatives s t
    decidable_of_iff (a = b ∧ s = t) (by simp)

end

instance : DecidableEq Node := decEq

/-- The id of a node. -/
def id : Node → Nat
  | literal id _ => id
  | parameter id _ _ => id
  | group id _ _ => id
  | separator id => id

/-- Whether a match may leave the node out. -/
def isOptional : Node → Bool
  | literal .. => false
  | parameter _ _ optional => optional
  | group _ _ optional => optional
  | separator _ => false

/-- The alternatives of a group; other nodes have none. -/
def alternatives? : Node → Option (List (List Node))
  | group _ alternatives _ => some alternatives
  | _ => none

end Node

end RoutePattern
