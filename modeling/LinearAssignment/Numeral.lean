/-! Decimal text of binary floating point. The text has the fewest digits that read back as the same
number, and among these the nearest; it is positional at any size, without an exponent and without
a point behind whole numbers. All work is on integers. -/
namespace LinearAssignment

class Numeral (α : Type) where
  text : α → String

namespace Numeral

/-- A positive number `significand * 2 ^ exponent`. Just above a power of two the next lower number
is only half as far away as the next higher one. -/
structure Dyadic where
  significand : Nat
  exponent : Int
  narrowBelow : Bool
  deriving DecidableEq, Repr

/-- The numbers that round to a dyadic one lie from `low` to `high` around `mid`, in units of
`1 / scale`. The ends themselves belong to them if `closed`. -/
structure Span where
  low : Nat
  mid : Nat
  high : Nat
  scale : Nat
  closed : Bool
  deriving DecidableEq, Repr

/-- A quarter of the last binary place is fine enough for both ends. -/
def Dyadic.span (number : Dyadic) : Span :=
  let unit := Nat.pow 2 (number.exponent - 2).toNat
  { low := (4 * number.significand - if number.narrowBelow then 1 else 2) * unit
    mid := 4 * number.significand * unit
    high := (4 * number.significand + 2) * unit
    scale := Nat.pow 2 (2 - number.exponent).toNat
    closed := number.significand % 2 == 0 }

def Span.contains (span : Span) (value : Nat) : Bool :=
  if span.closed then span.low ≤ value && value ≤ span.high
  else span.low < value && value < span.high

def Span.inPlace (span : Span) (place : Int) : Span :=
  let factor := Nat.pow 10 (-place).toNat
  { span with
    low := span.low * factor
    mid := span.mid * factor
    high := span.high * factor
    scale := span.scale * Nat.pow 10 place.toNat }

def digitCount (value : Nat) : Nat := (Nat.toDigits 10 value).length

def Span.magnitude (span : Span) : Int :=
  if span.scale ≤ span.mid then digitCount (span.mid / span.scale)
  else 1 - (digitCount ((span.scale - 1) / span.mid) : Int)

/-- Of the two whole numbers around the middle the nearer one that rounds to it, if one does.
Halfway between them the greater is taken. -/
def Span.wholeNumber? (span : Span) : Option Nat :=
  let below := span.mid / span.scale
  let above := below + 1
  let rest := span.mid % span.scale
  if span.contains (below * span.scale) then
    if span.contains (above * span.scale) && span.scale ≤ 2 * rest then some above
    else some below
  else if span.contains (above * span.scale) then some above
  else none

structure Decimal where
  digits : Nat
  place : Int
  deriving DecidableEq, Repr

/-- Tries more and more digits below the magnitude, at most the given number of further ones. The
middle itself, cut off, stands in if none of them serves. -/
def Span.shortest (span : Span) (place : Int) : Nat → Decimal
  | 0 => ⟨(span.inPlace place).mid / (span.inPlace place).scale, place⟩
  | more + 1 =>
    match (span.inPlace place).wholeNumber? with
    | some digits => ⟨digits, place⟩
    | none => span.shortest (place - 1) more

def Dyadic.decimal (number : Dyadic) : Decimal :=
  number.span.shortest (number.span.magnitude - 1) 17

def dropTrailingZeros (digits : List Char) : List Char :=
  (digits.reverse.dropWhile (· == '0')).reverse

/-- Positional text. A fraction ends in a digit other than zero, an empty one has no point. -/
def Decimal.text (decimal : Decimal) : String :=
  let digits := Nat.toDigits 10 decimal.digits ++ List.replicate decimal.place.toNat '0'
  let fractionLength := (-decimal.place).toNat
  let padded := List.replicate (fractionLength + 1 - digits.length) '0' ++ digits
  let wholeLength := padded.length - fractionLength
  let fraction := dropTrailingZeros (padded.drop wholeLength)
  let whole := String.ofList (padded.take wholeLength)
  if fraction.isEmpty then whole else whole ++ "." ++ String.ofList fraction

structure Layout where
  fractionBits : Nat
  exponentBits : Nat
  deriving DecidableEq, Repr

def Layout.topExponent (layout : Layout) : Nat := Nat.pow 2 layout.exponentBits - 1

def Layout.leastExponent (layout : Layout) : Int :=
  1 - (layout.topExponent / 2 : Nat) - layout.fractionBits

def Layout.text (layout : Layout) (bits : Nat) : String :=
  let hidden := Nat.pow 2 layout.fractionBits
  let fraction := bits % hidden
  let exponent := bits / hidden % (layout.topExponent + 1)
  let sign := if bits / hidden / (layout.topExponent + 1) == 0 then "" else "-"
  if exponent == layout.topExponent then
    if fraction == 0 then sign ++ "inf" else "NaN"
  else if exponent == 0 then
    if fraction == 0 then sign ++ "0"
    else sign ++ (Dyadic.mk fraction layout.leastExponent false).decimal.text
  else
    sign ++ (Dyadic.mk (hidden + fraction) (layout.leastExponent + exponent - 1)
      (fraction == 0 && 1 < exponent)).decimal.text

instance : Numeral Float := ⟨fun value => Layout.text ⟨52, 11⟩ value.toBits.toNat⟩

instance : Numeral Float32 := ⟨fun value => Layout.text ⟨23, 8⟩ value.toBits.toNat⟩

end Numeral
end LinearAssignment
