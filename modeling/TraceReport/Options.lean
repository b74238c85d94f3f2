import TraceReport.Settings.Basic

namespace TraceReport

/-- What a run may choose beyond its settings. -/
structure Options where
  /-- the second the system booted, when it is known to match the log -/
  boot : Option Nat
  /-- the views to draw in place of those of the settings -/
  views : Option Views
  /-- the processes to draw, all of them when there is no list -/
  processes : Option (List Text)
  periodMillis : Nat
  cores : Nat
  /-- whether to keep all records for the dumps -/
  keep : Bool
  deriving DecidableEq, Repr

namespace Options

def defaultPeriodMillis : Nat := 10

def new : Options := ⟨none, none, none, defaultPeriodMillis, 1, false⟩

def greatestPeriodMillis : Nat := 1000

def periodAllowed (millis : Nat) : Bool := 1 ≤ millis && millis ≤ greatestPeriodMillis

def effectiveViews (options : Options) (settings : Settings) : Views :=
  options.views.getD (.ofSettings settings)

end Options
end TraceReport
