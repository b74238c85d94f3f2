import Mathlib.Algebra.BigOperators.Group.List.Basic
import Mathlib.Algebra.Order.BigOperators.Group.List
import TraceReport.Proofs.Table
import TraceReport.Track.Load

namespace TraceReport

/-- One operation on a load, with all it is given. -/
inductive Load.Call
  | observe (now : Micros)
  | leave (tid : ThreadId) (now : Micros)
  | enter (tid : ThreadId) (core : Core) (now : Micros)
  | close (now : Micros)
  deriving DecidableEq, Repr

namespace Load

def call (load : Load) : Call → Load × Option Window
  | .observe now => (load.openWindow now, none)
  | .leave tid now => (load.leave tid now, none)
  | .enter tid core now => (load.enter tid core now, none)
  | .close now => load.closeWindow now

/-- The load after all calls, and the windows they closed. -/
def calls (load : Load) : List Call → Load × List Window
  | [] => (load, [])
  | c :: rest =>
    let (next, window) := load.call c
    let (last, windows) := next.calls rest
    (last, window.toList ++ windows)

/-- The busy times with a call: those of the window that it closes, or else of the load after it. -/
def counted (load : Load) (c : Call) : List Nat :=
  ((load.call c).2.map Window.busy).getD (load.call c).1.busy

/-- The core and the time of every thread that runs, counted up to `now`. -/
def owed (load : Load) (now : Micros) : List (Core × Nat) :=
  load.running.map fun (_, core, since) => (core, Micros.since now since)

def addAll (load : Load) (credits : List (Core × Nat)) : Load :=
  credits.foldl (fun load (core, span) => load.addBusy core span) load

/-- The spans that a call counts, each with its core. -/
def credits (load : Load) : Call → List (Core × Nat)
  | .leave tid now =>
    ((load.running.find? tid).map fun (core, since) => (core, Micros.since now since)).toList
  | .close now =>
    match load.windowEnd with
    | some ending => if now < ending then [] else load.owed now
    | none => []
  | _ => []

section

variable (load : Load) (core : Core) (span : Nat) (credits : List (Core × Nat))

@[simp]
theorem addBusy_period : (load.addBusy core span).period = load.period := rfl

@[simp]
theorem addBusy_cores : (load.addBusy core span).cores = load.cores :=
  List.length_modify _ _ _

theorem addBusy_busy (c : Core) :
    (load.addBusy core span).busy[c]? =
      if core = c then (load.busy[c]?).map fun busy => min (busy + span) load.period
      else load.busy[c]? := by
  simp only [addBusy, List.getElem?_modify]
  split_ifs with h <;> simp

@[simp]
theorem addAll_nil : load.addAll [] = load := rfl

@[simp]
theorem addAll_cons :
    load.addAll ((core, span) :: credits) = (load.addBusy core span).addAll credits := rfl

/-- Counting touches nothing but the busy times. -/
theorem addAll_eq :
    load.addAll credits = { load with busy := (load.addAll credits).busy } := by
  induction credits generalizing load with
  | nil => rfl
  | cons credit rest ih =>
    obtain ⟨core, span⟩ := credit
    rw [addAll_cons, ih]
    rfl

@[simp]
theorem addAll_cores : (load.addAll credits).cores = load.cores := by
  induction credits generalizing load with
  | nil => rfl
  | cons credit rest ih =>
    obtain ⟨core, span⟩ := credit
    rw [addAll_cons, ih, addBusy_cores]

theorem leave_eq (tid : ThreadId) (now : Micros) (ho : Table.Ordered load.running) :
    load.leave tid now =
      { load.addAll (load.credits (.leave tid now)) with
        running := load.running.filter fun entry => entry.1 ≠ tid } := by
  cases hf : load.running.find? tid with
  | none =>
    have keep : load.running.filter (fun entry => entry.1 ≠ tid) = load.running :=
      List.filter_eq_self.mpr fun entry hm => by
        simpa using (Table.find?_eq_none_iff ho).mp hf entry hm
    simp only [leave, Load.credits, hf, Option.map_none, Option.toList_none, addAll_nil, keep]
  | some found =>
    obtain ⟨core, since⟩ := found
    simp only [leave, Load.credits, hf, Option.map_some, Option.toList_some, addAll_cons,
      addAll_nil]
    rw [Table.erase_eq_filter tid ho]
    rfl

theorem settle_eq (now : Micros) :
    load.settle now =
      { load.addAll (load.owed now) with
        running := load.running.map fun (tid, core, _) => (tid, core, now) } := by
  have counted : load.running.foldl
      (fun load (_, core, since) => load.addBusy core (Micros.since now since)) load =
        load.addAll (load.owed now) := by
    rw [addAll, owed, List.foldl_map]
  simp only [settle, counted]

end

/-- A call counts what it owes, and nothing else. -/
theorem counted_eq (load : Load) (ho : Table.Ordered load.running) (c : Call) :
    load.counted c = (load.addAll (load.credits c)).busy := by
  cases c with
  | observe now =>
    cases hw : load.windowEnd <;> simp [counted, call, openWindow, credits, hw]
  | leave tid now => simp [counted, call, leave_eq load tid now ho]
  | enter tid core now =>
    simp only [counted, call, enter, credits, addAll_nil]
    split_ifs <;> rfl
  | close now =>
    cases hw : load.windowEnd with
    | none => simp [counted, call, closeWindow, credits, hw]
    | some ending =>
      by_cases h : now < ending
      · simp [counted, call, closeWindow, credits, hw, h]
      · simp [counted, call, closeWindow, credits, hw, h, settle_eq]

end Load
end TraceReport
