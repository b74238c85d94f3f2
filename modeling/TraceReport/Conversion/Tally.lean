import TraceReport.Record

namespace TraceReport

/-- What a conversion counts. -/
structure Tally where
  lines : Nat
  blank : Nat
  auxiliary : Nat
  switches : Nat
  signals : Nat
  blocks : Nat
  ignored : Nat
  unknown : Nat
  rerouted : Nat
  events : Nat
  samples : Nat
  deriving DecidableEq, Repr

namespace Tally

def zero : Tally := ⟨0, 0, 0, 0, 0, 0, 0, 0, 0, 0, 0⟩

def countUser (tally : Tally) : UserRecord → Tally
  | .plain _ => { tally with signals := tally.signals + 1 }
  | .structured _ => { tally with blocks := tally.blocks + 1 }

def text (t : Tally) : String :=
  s!"{t.lines} lines ({t.switches} kernel, {t.signals} user, {t.blocks} structured user, " ++
    s!"{t.auxiliary} auxiliary, {t.blank} blank), {t.ignored} ignored, " ++
    s!"{t.unknown} unknown type, {t.rerouted} rerouted, {t.events} events written, " ++
    s!"{t.samples} CPU samples"

end Tally
end TraceReport
