import TraceReport.Decimal.Binary64

namespace TraceReport.Decimal

open Binary64 (Ratio)

/-- The reals that round to a positive double, in units of `2 ^ exponent`: `mid` is the double,
and the ends belong to it when the mantissa is even. -/
structure Interval where
  low : Nat
  mid : Nat
  high : Nat
  exponent : Int
  closed : Bool

/-- Below a power of two the doubles lie twice as close as above it. -/
def Interval.around (mantissa : Nat) (exponent : Int) : Interval where
  low :=
    if mantissa = Binary64.hiddenBit && Binary64.leastExponent < exponent then 4 * mantissa - 1
    else 4 * mantissa - 2
  mid := 4 * mantissa
  high := 4 * mantissa + 2
  exponent := exponent - 2
  closed := mantissa % 2 == 0

/-- One unit of the interval, measured in units of `10 ^ place`. -/
def Interval.unit (i : Interval) (place : Int) : Ratio :=
  let (a, b) := Ratio.shift 1 1 i.exponent
  if 0 ≤ place then (a, b * Nat.pow 10 place.toNat) else (a * Nat.pow 10 (-place).toNat, b)

/-- Whether `digits · 10 ^ place` lies in the interval, `unit` being its unit at that place. -/
def Interval.holds (i : Interval) (unit : Ratio) (digits : Nat) : Bool :=
  if i.closed then i.low * unit.1 ≤ digits * unit.2 && digits * unit.2 ≤ i.high * unit.1
  else i.low * unit.1 < digits * unit.2 && digits * unit.2 < i.high * unit.1

/-- The multiple of `10 ^ place` in the interval that is nearest to the double. -/
def Interval.pick? (i : Interval) (tiesUp : Bool) (place : Int) : Option Nat :=
  let unit := i.unit place
  let below := i.mid * unit.1 / unit.2
  match i.holds unit below, i.holds unit (below + 1) with
  | false, false => none
  | true, false => some below
  | false, true => some (below + 1)
  | true, true =>
    let twice := 2 * (i.mid * unit.1)
    let middle := (2 * below + 1) * unit.2
    if twice < middle then some below
    else if middle < twice then some (below + 1)
    else some (if tiesUp || below % 2 == 1 then below + 1 else below)

/-- Tries ever finer places; the first that has a multiple in the interval needs fewest digits. -/
def Interval.search (i : Interval) (tiesUp : Bool) : Nat → Int → Nat × Int
  | 0, place => (i.mid, place)
  | steps + 1, place =>
    match i.pick? tiesUp place with
    | some digits => (digits, place)
    | none => i.search tiesUp steps (place - 1)

/-- A place no decimal of the double reaches above; 30103/100000 is just over log₁₀ 2. -/
def coarsePlace (mantissa : Nat) (exponent : Int) : Int :=
  Int.fdiv (((mantissa.log2 : Int) + 1 + exponent) * 30103) 100000 + 2

/-- No double needs more than 17 digits, and the search starts at most three places early. -/
def placesTried : Nat := 24

/-- The fewest digits that read back as the positive double, nearest to it among those, with the
place of the last one. -/
def shortest (tiesUp : Bool) (mantissa : Nat) (exponent : Int) : Nat × Int :=
  (Interval.around mantissa exponent).search tiesUp placesTried (coarsePlace mantissa exponent)

end TraceReport.Decimal
