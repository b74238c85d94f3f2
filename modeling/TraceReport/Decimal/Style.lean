import TraceReport.Decimal.Shortest
import TraceReport.Numeral

namespace TraceReport.Decimal

/-- How a double is laid out once its digits are chosen. -/
structure Style where
  /-- whether a number whose first digit stands at this power of ten goes without an exponent -/
  positional : Int → Bool
  /-- whether a whole number ends in `.0` -/
  fraction : Bool
  /-- which of two decimals at the same distance is chosen: the upper one, or the even one -/
  tiesUp : Bool

/-- Numbers of a report: plain from 0.00001 up to sixteen whole digits, else scientific. -/
def Style.report : Style := ⟨fun x => -5 ≤ x && x ≤ 15, true, false⟩

/-- Numbers as event arguments: never an exponent, and no point in a whole number. -/
def Style.plain : Style := ⟨fun _ => true, false, true⟩

def withPoint (style : Style) (digits : Text) (place : Int) : Text :=
  if 0 ≤ place then
    digits ++ List.replicate place.toNat '0' ++ (if style.fraction then ".0".toList else [])
  else
    let after := (-place).toNat
    if after < digits.length then
      digits.take (digits.length - after) ++ '.' :: digits.drop (digits.length - after)
    else "0.".toList ++ List.replicate (after - digits.length) '0' ++ digits

def withExponent (digits : Text) (power : Int) : Text :=
  let body := match digits with
    | first :: second :: rest => first :: '.' :: second :: rest
    | single => single
  body ++ 'e' :: (if power < 0 then '-' else '+') :: Numeral.decimal power.natAbs

def Style.magnitude (style : Style) (mantissa : Nat) (exponent : Int) : Text :=
  if mantissa = 0 then if style.fraction then "0.0".toList else "0".toList
  else
    let (value, place) := shortest style.tiesUp mantissa exponent
    let digits := Numeral.decimal value
    let power := place + digits.length - 1
    if style.positional power then withPoint style digits place else withExponent digits power

/-- The text of a finite double. -/
def Style.text? (style : Style) : Binary64 → Option Text
  | .finite negative mantissa exponent =>
    let text := style.magnitude mantissa exponent
    some (if negative then '-' :: text else text)
  | _ => none

end TraceReport.Decimal
