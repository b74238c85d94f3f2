import TraceReport.Text.Basic

namespace TraceReport.Numeral

inductive Fault
  | empty
  | badDigit
  | tooLarge
  deriving DecidableEq, Repr

def Fault.message : Fault → String
  | .empty => "cannot parse integer from empty string"
  | .badDigit => "invalid digit found in string"
  | .tooLarge => "number too large to fit in target type"

def digitValue (c : Char) : Nat := c.toNat - '0'.toNat

/-- Continues a number from its value so far; the first offending character decides the fault. -/
def extend (limit value : Nat) : Text → Except Fault Nat
  | [] => .ok value
  | c :: rest =>
    if c.isDigit then
      let next := 10 * value + digitValue c
      if next ≤ limit then extend limit next rest else .error .tooLarge
    else .error .badDigit

/-- ASCII digits after an optional plus sign, at most `limit`. -/
def natural (limit : Nat) : Text → Except Fault Nat
  | [] => .error .empty
  | '+' :: [] => .error .badDigit
  | '+' :: rest => extend limit 0 rest
  | t => extend limit 0 t

def natural? (limit : Nat) (t : Text) : Option Nat := (natural limit t).toOption

def maxWord32 : Nat := UInt32.size - 1

def maxWord64 : Nat := UInt64.size - 1

/-- Half of the 64-bit numbers are negative. -/
def signedRange : Nat := UInt64.size / 2

/-- A signed 64-bit number: a minus sign and at most 2^63, or a natural number below it. -/
def integer? : Text → Option Int
  | '-' :: [] => none
  | '-' :: rest => (extend signedRange 0 rest).toOption.map fun n => -(n : Int)
  | t => (natural? (signedRange - 1) t).map Int.ofNat

def decimal (n : Nat) : Text := Nat.toDigits 10 n

def signed (n : Int) : Text := if n < 0 then '-' :: decimal n.natAbs else decimal n.natAbs

end TraceReport.Numeral
