import RoutePattern.Json.Basic

/-!
# Numbers of a JSON document

`numeral?` takes a number apart into its digits. A number is read as a double in two steps. As many
of its leading digits as fit in 64 bits are its significand, and the digits behind them only move
the power of ten (`Numeral.scaled`). Then the double next to the significand is multiplied by the
double next to the power of ten. `Numeral.isHuge` says that this product is beyond the greatest
finite double; since both factors are rounded, that is not the same as to say it of the number.
-/

namespace RoutePattern.Json

/-- The parts of a number. -/
structure Numeral where
  /-- The digits before the point. -/
  whole : Text
  /-- The digits behind the point. -/
  fraction : Text
  /-- Whether the exponent has a minus sign. -/
  negativeExponent : Bool
  /-- The digits of the exponent. -/
  exponent : Text

/-! ## The form of a number -/

/-- The parts of an exponent: nothing, or `e`, a sign and at least one digit. -/
def exponent? : Text → Option (Bool × Text)
  | [] => some (false, [])
  | mark :: rest =>
    if mark == 'e' || mark == 'E' then
      let negative := rest.head? == some '-'
      let digits := if negative || rest.head? == some '+' then rest.tail else rest
      if digits.isEmpty || !digits.all Char.isDigit then none else some (negative, digits)
    else none

/-- The parts of a number: digits without a needless zero in front, a point with at least one
digit behind it or no point, and an exponent or none. -/
def numeral? (literal : Text) : Option Numeral :=
  let unsigned := if literal.head? == some '-' then literal.tail else literal
  let whole := unsigned.takeWhile Char.isDigit
  let rest := unsigned.dropWhile Char.isDigit
  if whole.isEmpty || (whole.head? == some '0' && whole.length != 1) then none
  else
    let hasPoint := rest.head? == some '.'
    let fraction := if hasPoint then rest.tail.takeWhile Char.isDigit else []
    let rest := if hasPoint then rest.tail.dropWhile Char.isDigit else rest
    if hasPoint && fraction.isEmpty then none
    else (exponent? rest).map fun (negative, digits) => ⟨whole, fraction, negative, digits⟩

/-! ## The size of a number -/

/-- The product of a significand and a power of ten. -/
structure Scaled where
  significand : Nat
  exponent : Int

/-- Puts digits behind those of `value` as long as it fits in 64 bits, and gives the digits from
the first one that does not fit. -/
def extend (value : Nat) : Text → Nat × Text
  | [] => (value, [])
  | digit :: rest =>
    let longer := 10 * value + digitValue digit
    if longer < wordLimit then extend longer rest else (value, digit :: rest)

/-- The significand of a number and its power of ten. A digit before the point that does not fit
into the significand adds one to the exponent, and a digit behind the point that does fit takes
one away. -/
def Numeral.scaled (n : Numeral) : Scaled :=
  let (whole, left) := extend 0 n.whole
  let (significand, ignored) := extend whole n.fraction
  let written : Int := digitsValue n.exponent
  { significand
    exponent := left.length - (n.fraction.length - ignored.length : Nat) +
      if n.negativeExponent then -written else written }

/-- The number of 53 significant bits that is nearest to `n`; a tie goes to the even one. -/
def nearestDouble (n : Nat) : Nat :=
  let unit := Nat.pow 2 (n.log2 - 52)
  let twice := 2 * (n % unit)
  let units := if twice < unit || (twice == unit && n / unit % 2 == 0) then n / unit
    else n / unit + 1
  units * unit

/-- Every number below this one has a finite double next to it: half a step above the greatest
finite double. -/
def doubleLimit : Nat := Nat.pow 2 1024 - Nat.pow 2 970

/-- Whether the number is read as something too large for a double. The greatest power of ten that
has a double is the one with the exponent 308, so no larger one is ever formed; a negative exponent
only makes the significand less. -/
def Numeral.isHuge (n : Numeral) : Bool :=
  let ⟨significand, exponent⟩ := n.scaled
  if significand == 0 || exponent < 0 then false
  else if 308 < exponent then true
  else doubleLimit ≤ nearestDouble significand * nearestDouble (Nat.pow 10 exponent.toNat)

end RoutePattern.Json
