import TraceReport.Proofs.Conversion.Switches

namespace TraceReport

/-- The turns that records tell of; only switches do. -/
def Record.turns (records : List Record) : List Turn :=
  (Record.switches records).map Switch.turn

namespace Record

section

variable (records : List Record) (s : Switch) (u : UserRecord)

@[simp] theorem switches_append_switch :
    switches (records ++ [.switch s]) = switches records ++ [s] := by
  simp [switches, switch?]

@[simp] theorem switches_append_user : switches (records ++ [.user u]) = switches records := by
  simp [switches, switch?]

@[simp] theorem turns_append_switch :
    turns (records ++ [.switch s]) = turns records ++ [s.turn] := by
  simp [turns]

@[simp] theorem turns_append_user : turns (records ++ [.user u]) = turns records := by
  simp [turns]

end

end Record

namespace Job

/-- The load after records is that after their turns. -/
theorem after_load {job : Job} (hcpu : job.views.cpu = true) (records : List Record)
    (hread : ∀ s ∈ Record.switches records, s.incoming.isOk) :
    (job.after records).load =
      (Load.new job.cores job.periodMicros).after (Record.turns records) := by
  induction records using List.reverseRecOn with
  | nil => rfl
  | append_singleton before record ih =>
    rw [after, List.foldl_append]
    change (job.stepRecord (job.after before) record).progress.load = _
    cases record with
    | user record =>
      rw [Record.switches_append_user] at hread
      rw [Record.turns_append_user, ← ih hread]
      exact job.stepUser_load _ record
    | switch s =>
      rw [Record.switches_append_switch] at hread
      have hbefore := ih fun s' hs => hread s' (by simp [hs])
      obtain ⟨next, hnext⟩ := exists_ok_of_isOk (hread s (by simp))
      change (job.stepSwitch (job.after before) s).progress.load = _
      rw [stepSwitch_eq hcpu _ hnext, Record.turns_append_switch, Load.after_append, ← hbefore]

/-- Whenever a switch closes a window, each core was busy for as long as threads stayed on it in
the time since the window before, cut off at the period. -/
theorem window_busy_eq_overlap {job : Job} {records : List Record} {s : Switch}
    (hcpu : job.views.cpu = true)
    (hread : ∀ s' ∈ Record.switches (records ++ [.switch s]), s'.incoming.isOk)
    (hreg : (Load.new job.cores job.periodMicros).Regular
      (Record.turns (records ++ [.switch s]))) :
    let cores := max job.cores 1
    let period := max job.periodMicros 1
    let p := job.after records
    let window := (p.load.take s.turn).2
    let opened :=
      (Load.new job.cores job.periodMicros).openedAt (Record.turns records) s.turn
    let stays := Turn.stays (Record.turns (records ++ [.switch s]))
    ((job.stepSwitch p s).fault = none ∧ ∃ schedule, (job.stepSwitch p s).drawn =
      Drawn.of .schedule schedule ++ Drawn.of .usage (window.elim [] Window.events)) ∧
    ∀ w ∈ window, w.period = period ∧ w.busy.length = cores ∧
      ∀ core < cores,
        w.busy[core]? = some (min (Stay.onCore core opened s.header.time stays) period) := by
  intro cores period p window opened stays
  have hbounded := Load.new_bounded job.cores job.periodMicros
  rw [Record.switches_append_switch] at hread
  rw [Record.turns_append_switch] at hreg
  have hload : p.load = (Load.new job.cores job.periodMicros).after (Record.turns records) :=
    after_load hcpu records fun s' hs => hread s' (by simp [hs])
  obtain ⟨next, hnext⟩ := exists_ok_of_isOk (hread s (by simp))
  have hstep := stepSwitch_eq hcpu p hnext
  refine ⟨⟨congrArg Step.fault hstep, _, congrArg Step.drawn hstep⟩, fun w hw => ?_⟩
  have hclosed : w ∈ (((Load.new job.cores job.periodMicros).after (Record.turns records)).take
      s.turn).2 := hload ▸ hw
  have hwb := ((hbounded.after (Record.turns records)).take s.turn).2 w hclosed
  refine ⟨hwb.period_eq, hwb.length_eq, fun core hc => ?_⟩
  have hbusy := Load.take_busy (Load.new_tracks job.cores job.periodMicros) hbounded
    (Record.turns records) s.turn hreg w hclosed core hc
  rw [← Record.turns_append_switch] at hbusy
  exact hbusy

/-- A switch of a core from one task to the next. -/
def switchAt (time : Micros) (core : Core) (task : String) (tid : ThreadId) (next : String)
    (nextTid : String) : Switch where
  header := {
    stamp := [], time, core, tid
    host := [], provider := Line.switchName, event := Line.switchName, cpu := []
    process := task.toList
    pid := tid
    payload := [("next_comm".toList, next.toList), ("next_tid".toList, nextTid.toList)] }

/-- Two cores in windows of a millisecond. -/
def twoCores : Job where
  settings := ⟨[], false, ⟨false, []⟩, true⟩
  views := ⟨false, false, true⟩
  processes := none
  clock := ⟨none⟩
  groups := .none
  cores := 2
  periodMicros := 1000
  keep := false

/-- A task that moves to the other core, and a window that closes late. -/
def moving : List Record :=
  [.switch (switchAt 0 0 "swapper/0" 0 "a" "10"), .switch (switchAt 400 0 "a" 10 "b" "11"),
    .switch (switchAt 1200 1 "swapper/1" 0 "a" "10"),
    .switch (switchAt 1500 0 "b" 11 "swapper/0" "")]

theorem window_busy_moving :
    let s := switchAt 2300 1 "a" 10 "swapper/1" ""
    let start := Load.new twoCores.cores twoCores.periodMicros
    let turns := Record.turns (moving ++ [.switch s])
    twoCores.views.cpu = true ∧
    (∀ s' ∈ Record.switches (moving ++ [.switch s]), s'.incoming.isOk) ∧
    start.Regular turns ∧
    ∃ w ∈ ((twoCores.after moving).load.take s.turn).2,
      w.busy[0]? = some (min 300 1000) ∧ w.busy[1]? = some (min 1100 1000) := by
  intro s start turns
  have hcpu : twoCores.views.cpu = true := rfl
  have hread : ∀ s' ∈ Record.switches (moving ++ [.switch s]), s'.incoming.isOk := by decide
  have hreg : start.Regular turns := by decide
  have hopened : start.openedAt (Record.turns moving) s.turn = 1200 := by decide
  have hspans : Stay.onCore 0 1200 s.header.time (Turn.stays turns) = 300 ∧
      Stay.onCore 1 1200 s.header.time (Turn.stays turns) = 1100 := by decide
  obtain ⟨w, hw⟩ : ∃ w, ((twoCores.after moving).load.take s.turn).2 = some w :=
    Option.isSome_iff_exists.mp (by decide)
  have hcore := ((window_busy_eq_overlap hcpu hread hreg).2 w hw).2.2
  have hfirst := hcore 0 (by decide)
  have hsecond := hcore 1 (by decide)
  rw [hopened, hspans.1] at hfirst
  rw [hopened, hspans.2] at hsecond
  exact ⟨hcpu, hread, hreg, w, hw, hfirst, hsecond⟩

end Job
end TraceReport
