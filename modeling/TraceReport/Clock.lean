import TraceReport.Numeral

namespace TraceReport

/-- Microseconds of trace time; they stay within 64 bits. -/
abbrev Micros := Nat

namespace Micros

def limit : Micros := Numeral.maxWord64

/-- Time stops at the limit. -/
def after (time : Micros) (span : Nat) : Micros := min (time + span) limit

/-- The time since `earlier`, zero if that is later. -/
def since (time earlier : Micros) : Nat := time - earlier

end Micros

/-- How wall-clock stamps become trace time: from the second the system booted, if it is known. -/
structure Clock where
  boot : Option Nat
  deriving DecidableEq, Repr

namespace Clock

def perSecond : Nat := 1000000

def fractionDigits : Nat := 6

def fractionMicros (fraction : Text) : Nat :=
  let kept := fraction.take fractionDigits
  let value := kept.foldl (fun n c => 10 * n + Numeral.digitValue c) 0
  value * Nat.pow 10 (fractionDigits - kept.length)

/-- Seconds since boot, or the low six digits when there is no boot time before them. -/
def wholeSeconds (clock : Clock) (seconds : Nat) : Nat :=
  match clock.boot with
  | some boot => if boot ≤ seconds then seconds - boot else seconds % perSecond
  | none => seconds % perSecond

/-- The text between the brackets. -/
def bracketed? : Text → Option Text
  | '[' :: rest => if rest.getLast? = some ']' then some rest.dropLast else none
  | _ => none

/-- The two halves of a stamp `[seconds.fraction]`. -/
def parts? (stamp : Text) : Option (Nat × Text) :=
  match (bracketed? stamp).bind (Text.cut? '.') with
  | none => none
  | some (seconds, fraction) =>
    if fraction.isEmpty || !fraction.all Char.isDigit then none
    else (Numeral.natural? Numeral.maxWord64 seconds).map fun n => (n, fraction)

/-- Trace time of a stamp; digits past the sixth are dropped. -/
def micros? (clock : Clock) (stamp : Text) : Option Micros :=
  match parts? stamp with
  | none => none
  | some (seconds, fraction) =>
    let time := clock.wholeSeconds seconds * perSecond + fractionMicros fraction
    if time ≤ Micros.limit then some time else none

end Clock
end TraceReport
