import TraceReport.Proofs.Conversion.Reading
import TraceReport.Proofs.Load.Busy

namespace TraceReport

namespace Switch

/-- The turn a switch tells of. -/
def turn (s : Switch) : Turn :=
  ⟨s.header.time, s.header.core, s.outgoing?, s.incoming.toOption.join⟩

/-- What a switch does to a load. If it cannot be read through, its task still leaves the core. -/
def onLoad (s : Switch) (load : Load) : Load × Option Window :=
  match s.incoming with
  | .error _ => (load.vacated s.turn, none)
  | .ok _ => load.take s.turn

end Switch

theorem Load.Bounded.onLoad {load : Load} {cores period : Nat} (h : load.Bounded cores period)
    (s : Switch) : (s.onLoad load).1.Bounded cores period := by
  unfold Switch.onLoad
  cases s.incoming with
  | error fault => exact h.vacated s.turn
  | ok entering => exact (h.take s.turn).1

namespace Job

/-- What a switch draws on the schedule: the task that leaves, then the one that enters. -/
def switchEvents (job : Job) (s : Switch) (next : Option ThreadId) : List Event :=
  job.scheduleEvents s .finish s.header.process s.outgoing? ++
    job.scheduleEvents s .begin s.nextName next

theorem mem_scheduleEvents {job : Job} {s : Switch} {phase : Phase} {task : Text}
    {tid? : Option ThreadId} {e : Event} :
    e ∈ job.scheduleEvents s phase task tid? ↔
      ∃ tid, tid? = some tid ∧ job.selects task = true ∧ e = s.event phase task tid := by
  cases tid? with
  | none => simp [scheduleEvents]
  | some tid =>
    by_cases h : job.selects task = true
    · simp [scheduleEvents, h]
    · simp [scheduleEvents, h]

theorem stepSwitch_eq {job : Job} (hcpu : job.views.cpu = true) (p : Progress) {s : Switch}
    {next : Option ThreadId} (hnext : s.incoming = .ok next) :
    job.stepSwitch p s =
      let taken := p.load.take s.turn
      ⟨{ p with
          names := p.names.note s.header.process s.header.pid s.header.tid
          load := taken.1
          tally := { p.tally with
            switches := p.tally.switches + 1
            samples := p.tally.samples + taken.2.toList.length }
          kept := p.kept.map (·.addSwitch s) },
        Drawn.of .schedule (job.switchEvents s next) ++
          Drawn.of .usage (taken.2.elim [] Window.events), none⟩ := by
  have hturn : s.turn = ⟨s.header.time, s.header.core, s.outgoing?, next⟩ := by
    simp [Switch.turn, hnext, Except.toOption]
  rw [hturn]
  simp only [stepSwitch, hcpu, hnext, Drawn.of, switchEvents, List.map_append]
  rfl

/-- When the incoming task cannot be read, the outgoing one is drawn nevertheless. -/
theorem stepSwitch_error {job : Job} (hcpu : job.views.cpu = true) (p : Progress) {s : Switch}
    {fault : LineFault} (hnext : s.incoming = .error fault) :
    job.stepSwitch p s =
      ⟨{ p with
          names := p.names.note s.header.process s.header.pid s.header.tid
          load := p.load.vacated s.turn
          tally := { p.tally with switches := p.tally.switches + 1 } },
        Drawn.of .schedule (job.scheduleEvents s .finish s.header.process s.outgoing?),
        some fault⟩ := by
  simp only [stepSwitch, hcpu, hnext]
  rfl

theorem stepSwitch_off {job : Job} (hcpu : job.views.cpu = false) (p : Progress) (s : Switch) :
    job.stepSwitch p s =
      ⟨{ p with tally := { p.tally with switches := p.tally.switches + 1 } }, [], none⟩ := by
  simp only [stepSwitch, hcpu]
  rfl

theorem stepSwitch_load (job : Job) (p : Progress) (s : Switch) :
    (job.stepSwitch p s).progress.load =
      if job.views.cpu then (s.onLoad p.load).1 else p.load := by
  cases hcpu : job.views.cpu with
  | false => rw [stepSwitch_off hcpu]; rfl
  | true =>
    cases hnext : s.incoming with
    | error fault => rw [stepSwitch_error hcpu p hnext, Switch.onLoad, hnext]; rfl
    | ok next => rw [stepSwitch_eq hcpu p hnext, Switch.onLoad, hnext]; rfl

theorem stepSwitch_drawn (job : Job) (p : Progress) (s : Switch) :
    (job.stepSwitch p s).drawn =
      if job.views.cpu then
        Drawn.of .schedule (job.switchEvents s s.turn.entering) ++
          Drawn.of .usage ((s.onLoad p.load).2.elim [] Window.events)
      else [] := by
  cases hcpu : job.views.cpu with
  | false => rw [stepSwitch_off hcpu]; rfl
  | true =>
    cases hnext : s.incoming with
    | error fault =>
      have hentering : s.turn.entering = none := by simp [Switch.turn, hnext, Except.toOption]
      rw [stepSwitch_error hcpu p hnext, Switch.onLoad, hnext, hentering]
      simp [switchEvents, scheduleEvents, Drawn.of]
    | ok next =>
      have hentering : s.turn.entering = next := by simp [Switch.turn, hnext, Except.toOption]
      rw [stepSwitch_eq hcpu p hnext, Switch.onLoad, hnext, hentering]
      rfl

theorem stepUser_load (job : Job) (p : Progress) (record : UserRecord) :
    (job.stepUser p record).progress.load = p.load := by
  unfold stepUser
  dsimp only
  split <;> rfl

theorem stepUser_drawn (job : Job) (p : Progress) (record : UserRecord) :
    (job.stepUser p record).drawn =
      if job.settings.ignores record.header.process record.header.provider then []
      else job.drawUser record := by
  unfold stepUser
  dsimp only
  split <;> rfl

theorem stepRecord_bounded {job : Job} {p : Progress} {cores period : Nat}
    (hb : p.load.Bounded cores period) (record : Record) :
    (job.stepRecord p record).progress.load.Bounded cores period := by
  cases record with
  | user u =>
    rw [stepRecord, stepUser_load]
    exact hb
  | switch s =>
    rw [stepRecord, stepSwitch_load]
    split_ifs
    · exact hb.onLoad s
    · exact hb

/-- Jobs that both draw cores, or both do not, keep the same load. -/
theorem stepRecord_load_congr {job other : Job} (hcpu : job.views.cpu = other.views.cpu)
    {p q : Progress} (hload : p.load = q.load) (record : Record) :
    (job.stepRecord p record).progress.load = (other.stepRecord q record).progress.load := by
  cases record with
  | user u => simpa only [stepRecord, stepUser_load] using hload
  | switch s => simp only [stepRecord, stepSwitch_load, hcpu, hload]

end Job
end TraceReport
