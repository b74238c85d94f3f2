import TraceReport.Json.Basic
import TraceReport.Numeral

namespace TraceReport.Json

/-- The largest power of ten that is a finite double. -/
def greatestPower : Nat := 308

def powerOfTen (n : Nat) : Binary64 := .ofRatio false (Nat.pow 10 n) 1

/-- Divides by a power of ten, in steps that each round once. -/
def lower (x : Binary64) (places : Nat) : Binary64 :=
  if places ≤ greatestPower then x.div (powerOfTen places)
  else if x.isZero then x
  else lower (x.div (powerOfTen greatestPower)) (places - greatestPower)
termination_by places
decreasing_by simp [greatestPower]; omega

/-- Multiplies by a power of ten; none when the result is beyond every double. -/
def raise? (x : Binary64) (places : Nat) : Option Binary64 :=
  if places ≤ greatestPower then
    let y := x.mul (powerOfTen places)
    if y.isFinite then some y else none
  else if x.isZero then some x else none

/-- The double read for `significand · 10 ^ power`: the significand is rounded first, then
scaled. -/
def scaled? (significand : Nat) (power : Int) : Option Binary64 :=
  if 0 ≤ power then raise? (.ofNat significand) power.toNat
  else some (lower (.ofNat significand) (-power).toNat)

/-- Takes in digits while the number stays within 64 bits; what is left over comes back. -/
def absorb (value : Nat) : Text → Nat × Text
  | [] => (value, [])
  | c :: rest =>
    let next := 10 * value + Numeral.digitValue c
    if next ≤ Numeral.maxWord64 then absorb next rest else (value, c :: rest)

def digits (t : Text) : Text × Text := (t.takeWhile Char.isDigit, t.dropWhile Char.isDigit)

/-- No leading zero before another digit. -/
def wholeDigits? (t : Text) : Option (Text × Text) :=
  match digits t with
  | ([], _) => none
  | ('0' :: _ :: _, _) => none
  | found => some found

/-- A point and the digits after it, of which there is at least one. -/
def fraction? : Text → Option (Option Text × Text)
  | '.' :: rest =>
    match digits rest with
    | ([], _) => none
    | (found, rest) => some (some found, rest)
  | t => some (none, t)

def exponentDigits? (negative : Bool) (t : Text) : Option (Option (Bool × Text) × Text) :=
  match digits t with
  | ([], _) => none
  | (found, rest) => some (some (negative, found), rest)

/-- The sign and the digits of an exponent. -/
def exponent? : Text → Option (Option (Bool × Text) × Text)
  | c :: rest =>
    if c = 'e' || c = 'E' then
      match rest with
      | '-' :: rest => exponentDigits? true rest
      | '+' :: rest => exponentDigits? false rest
      | rest => exponentDigits? false rest
    else some (none, c :: rest)
  | [] => some (none, [])

/-- Exponents have a range of their own; beyond it the number is zero or too great. -/
def greatestExponent : Nat := Numeral.maxWord32 / 2

def real? (whole : Text) (part : Option Text) (exponent : Option (Bool × Text)) :
    Option Binary64 :=
  let (high, dropped) := absorb 0 whole
  let (significand, ignored) := absorb high (part.getD [])
  let places : Int := dropped.length + ignored.length - (part.getD []).length
  match exponent with
  | none => scaled? significand places
  | some (negative, found) =>
    match Numeral.natural? greatestExponent found with
    | some n => scaled? significand (if negative then places - n else places + n)
    | none => if significand = 0 || negative then some (.ofNat 0) else none

/-- An integer that fits 64 bits; a negative zero is a double. -/
def int? (negative : Bool) (whole : Text) : Option Int :=
  match absorb 0 whole with
  | (n, []) =>
    if !negative then some n
    else if 0 < n && n ≤ Numeral.signedRange then some (-(n : Int))
    else none
  | _ => none

/-- A number without its sign. -/
def unsigned? (negative : Bool) (t : Text) : Option (Json × Text) := do
  let (whole, t) ← wholeDigits? t
  let (part, t) ← fraction? t
  let (exponent, t) ← exponent? t
  let whole? := if part.isNone && exponent.isNone then int? negative whole else none
  match whole? with
  | some n => some (.int n, t)
  | none =>
    let x ← real? whole part exponent
    some (.real (if negative then x.neg else x), t)

def number? : Text → Option (Json × Text)
  | '-' :: rest => unsigned? true rest
  | t => unsigned? false t

end TraceReport.Json
