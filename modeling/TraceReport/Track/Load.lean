import TraceReport.Decimal.Binary64
import TraceReport.Record

namespace TraceReport

/-- A closed stretch of core time: how long each core was busy in it. -/
structure Window where
  ending : Micros
  period : Nat
  busy : List Nat
  deriving DecidableEq, Repr

namespace Window

def fullShare : Nat := 100

/-- Percent of the period, rounded after each of the two steps. -/
def percent (period busy : Nat) : Binary64 :=
  ((Binary64.ofNat busy).mul (.ofNat fullShare)).div (.ofNat period)

def shares (w : Window) : List Binary64 :=
  w.busy.map fun busy => (percent w.period busy).atMost fullShare

/-- The busy times of all cores, added up in 64 bits. -/
def busyTotal (w : Window) : Nat := w.busy.foldl (· + ·) 0 % UInt64.size

/-- The mean share of all cores. -/
def total (w : Window) : Binary64 :=
  ((percent w.period w.busyTotal).div (.ofNat w.busy.length)).atMost fullShare

end Window

/-- The busy time of cores in the current window, and the threads that are on a core, each with
the time up to which it has been counted. -/
structure Load where
  period : Nat
  busy : List Nat
  windowEnd : Option Micros
  running : Table ThreadId (Core × Micros)
  deriving DecidableEq, Repr

namespace Load

/-- There is at least one core, and a window is at least a microsecond long. -/
def new (cores period : Nat) : Load := ⟨max period 1, List.replicate (max cores 1) 0, none, []⟩

def cores (load : Load) : Nat := load.busy.length

def ending (load : Load) : Micros := load.windowEnd.getD 0

/-- The first switch opens the first window. -/
def openWindow (load : Load) (now : Micros) : Load :=
  match load.windowEnd with
  | some _ => load
  | none => { load with windowEnd := some (Micros.after now load.period) }

/-- A core is never busy for longer than the window. -/
def addBusy (load : Load) (core : Core) (span : Nat) : Load :=
  { load with busy := load.busy.modify core fun busy => min (busy + span) load.period }

def leave (load : Load) (tid : ThreadId) (now : Micros) : Load :=
  match load.running.find? tid with
  | none => load
  | some (core, since) =>
    addBusy { load with running := load.running.erase tid } core (Micros.since now since)

/-- A core beyond the known ones is not followed. -/
def enter (load : Load) (tid : ThreadId) (core : Core) (now : Micros) : Load :=
  if core < load.cores then { load with running := load.running.insert tid (core, now) }
  else load

/-- Counts every running thread up to `now`. -/
def settle (load : Load) (now : Micros) : Load :=
  let counted := load.running.foldl
    (fun load (_, core, since) => load.addBusy core (Micros.since now since)) load
  { counted with running := load.running.map fun (tid, core, _) => (tid, core, now) }

/-- Closes the window if `now` has reached its end, and opens the next one. -/
def closeWindow (load : Load) (now : Micros) : Load × Option Window :=
  match load.windowEnd with
  | none => (load, none)
  | some ending =>
    if now < ending then (load, none)
    else
      let settled := load.settle now
      ({ settled with
          busy := settled.busy.map fun _ => 0
          windowEnd := some (Micros.after now load.period) },
        some ⟨ending, load.period, settled.busy⟩)

end Load
end TraceReport
