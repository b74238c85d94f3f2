import TraceReport.Proofs.Conversion.Schedule
import TraceReport.Proofs.Conversion.Sources
import TraceReport.Proofs.Record

namespace TraceReport

namespace Drawn

/-- The phases of a thread on the track of the schedule. -/
def phasesOn (tid : ThreadId) (drawn : List Drawn) : List Phase :=
  (drawn.filter fun d => d.origin = .schedule ∧ d.event.tid = some tid).map fun d => d.event.phase

section

variable (tid : ThreadId)

theorem phasesOn_append (drawn more : List Drawn) :
    phasesOn tid (drawn ++ more) = phasesOn tid drawn ++ phasesOn tid more := by
  simp [phasesOn]

theorem phasesOn_of_ne {drawn : List Drawn} (h : ∀ d ∈ drawn, d.origin ≠ .schedule) :
    phasesOn tid drawn = [] := by
  have hnone : drawn.filter (fun d => d.origin = .schedule ∧ d.event.tid = some tid) = [] := by
    apply List.filter_eq_nil_iff.mpr
    intro d hd
    simp [h d hd]
  rw [phasesOn, hnone]
  rfl

end

end Drawn

namespace Job

section

variable {job : Job} (tid : ThreadId)

theorem phasesOn_scheduleEvents (hall : job.processes = none) (s : Switch) (phase : Phase)
    (task : Text) (tid? : Option ThreadId) :
    Drawn.phasesOn tid (Drawn.of .schedule (job.scheduleEvents s phase task tid?)) =
      if tid? = some tid then [phase] else [] := by
  cases tid? with
  | none => rfl
  | some other =>
    have hselects : job.selects task = true := by simp [selects, hall]
    by_cases h : other = tid
    · simp [Drawn.phasesOn, Drawn.of, scheduleEvents, hselects, Switch.event, h]
    · simp [Drawn.phasesOn, Drawn.of, scheduleEvents, hselects, Switch.event, h]

/-- A switch draws the ends and begins of its turn, and a user record none. -/
theorem phasesOn_stepSwitch (hcpu : job.views.cpu = true) (hall : job.processes = none)
    (p : Progress) (s : Switch) :
    Drawn.phasesOn tid (job.stepSwitch p s).drawn = s.turn.phases tid := by
  have husage : Drawn.phasesOn tid
      (Drawn.of .usage ((s.onLoad p.load).2.elim [] Window.events)) = [] := by
    apply Drawn.phasesOn_of_ne
    intro d hd
    simp [(Drawn.mem_of.mp hd).1]
  have happend (events more : List Event) : Drawn.of .schedule (events ++ more) =
      Drawn.of .schedule events ++ Drawn.of .schedule more := List.map_append
  rw [stepSwitch_drawn, if_pos hcpu, Drawn.phasesOn_append, husage, List.append_nil, switchEvents,
    happend, Drawn.phasesOn_append, phasesOn_scheduleEvents tid hall,
    phasesOn_scheduleEvents tid hall]
  rfl

theorem phasesOn_stepUser (p : Progress) (u : UserRecord) :
    Drawn.phasesOn tid (job.stepUser p u).drawn = [] := by
  apply Drawn.phasesOn_of_ne
  intro d hd
  have hrecord : d ∈ (job.stepRecord p (.user u)).drawn := hd
  rcases stepRecord_drawn hrecord with ⟨ho, -⟩ | ⟨ho, -⟩ <;> simp [ho]

/-- What records draw of a thread is what their turns tell of it. -/
theorem phasesOn_draws (hcpu : job.views.cpu = true) (hall : job.processes = none)
    (records : List Record) (p : Progress) :
    Drawn.phasesOn tid (job.draws p records) = (Record.turns records).flatMap (Turn.phases tid) := by
  induction records generalizing p with
  | nil => rfl
  | cons record rest ih =>
    rw [draws, Drawn.phasesOn_append, ih]
    cases record with
    | switch s =>
      rw [stepRecord, phasesOn_stepSwitch tid hcpu hall]
      rfl
    | user u =>
      rw [stepRecord, phasesOn_stepUser]
      rfl

end

section

variable {job : Job}

theorem phasesOn_convert (hcpu : job.views.cpu = true) (hall : job.processes = none)
    (log : List Text) (tid : ThreadId) :
    Drawn.phasesOn tid (job.convert log).drawn =
      (Record.turns (job.intake log)).flatMap (Turn.phases tid) := by
  have hclosing : Drawn.phasesOn tid
      (if job.firstFault log = none then job.closing (job.after (job.intake log)) else []) = [] := by
    apply Drawn.phasesOn_of_ne
    intro d hd
    split_ifs at hd
    · intro ho
      exact not_mem_closing (by simp [ho]) (by simp [ho]) hd
    · simp at hd
  rw [convert_intake, Drawn.phasesOn_append, hclosing, List.append_nil,
    phasesOn_draws tid hcpu hall]

/-- A run that draws cores reads all switches through that it takes in, the last one apart. -/
theorem isOk_of_mem_intake (hcpu : job.views.cpu = true) (log : List Text) :
    ∀ s ∈ (Record.switches (job.intake log)).dropLast, s.incoming.isOk := by
  have hpass := job.lineFault_of_mem_taken log
  unfold intake
  generalize job.taken log = lines at hpass
  cases lines using List.reverseRecOn with
  | nil => simp [Log.records, Record.switches]
  | append_singleton before raw =>
    rw [List.dropLast_concat] at hpass
    intro s hs
    have hbefore : s ∈ Record.switches (Log.records job.clock before) := by
      rw [Log.records_append] at hs
      generalize (Line.record job.clock raw).toOption.join = found at hs
      cases found with
      | none => exact List.mem_of_mem_dropLast (by simpa using hs)
      | some record =>
        cases record with
        | user u => exact List.mem_of_mem_dropLast (by simpa using hs)
        | switch last => simpa using hs
    obtain ⟨line, hline, hrecord⟩ := Log.mem_records.mp (Record.mem_switches.mp hbefore)
    have hfault := hpass line hline
    simp only [lineFault, hrecord, hcpu, if_true] at hfault
    cases hi : s.incoming with
    | error fault => simp [hi] at hfault
    | ok entering => rfl

/-- The switches taken in of the first lines of a log are the first switches of the log. -/
theorem intake_switches_prefix (job : Job) {before log : List Text} (h : before <+: log) :
    Record.switches (job.intake before) <+: Record.switches (Log.records job.clock log) := by
  have htaken : job.taken before <+: log := (job.taken_prefix before).trans h
  exact (htaken.filterMap _).filterMap _

end

end Job

namespace Load

/-- A switch leaves every thread that is held as running on the core of the thread. -/
theorem Placed.onLoad {load : Load} {o : Occupancy} {cores period : Nat} {s : Switch}
    (h : load.Placed o) (hb : load.Bounded cores period) (hturn : o.Allows s.turn) :
    (s.onLoad load).1.Placed (o.turned s.turn) := by
  unfold Switch.onLoad
  cases s.incoming with
  | error fault => exact h.vacated hb hturn.leaving
  | ok entering => exact h.take hb hturn.leaving

end Load

namespace Job

section

variable {job : Job}

theorem running_cores_nodup {cores period : Nat} (hcpu : job.views.cpu = true)
    (records : List Record) {p : Progress} {o : Occupancy} (hp : p.load.Placed o)
    (hb : p.load.Bounded cores period) (hturns : o.AllowsAll (Record.turns records)) :
    ((records.foldl (fun p r => (job.stepRecord p r).progress) p).load.running.map
      fun entry => entry.2.1).Nodup := by
  induction records generalizing p o with
  | nil => exact hp.cores_nodup hb
  | cons record rest ih =>
    have hbounded : (job.stepRecord p record).progress.load.Bounded cores period :=
      stepRecord_bounded hb record
    cases record with
    | user u =>
      have hload : (job.stepRecord p (.user u)).progress.load = p.load := job.stepUser_load p u
      exact ih (hload ▸ hp) hbounded hturns
    | switch s =>
      obtain ⟨hturn, hrest⟩ := hturns
      have hload : (job.stepRecord p (.switch s)).progress.load = (s.onLoad p.load).1 := by
        rw [stepRecord, stepSwitch_load, if_pos hcpu]
      exact ih (hload ▸ hp.onLoad hb hturn) hbounded hrest

/-- The events of the schedule are drawn by switches. -/
theorem exists_switch_of_mem_draws {records : List Record} {d : Drawn}
    (hd : d ∈ job.draws job.start records) (ho : d.origin = .schedule) :
    ∃ s, .switch s ∈ records ∧ d.event ∈ job.switchEvents s s.turn.entering := by
  obtain ⟨before, record, hp, hd⟩ := mem_draws hd
  have hrecord : record ∈ records := hp.subset (by simp)
  cases record with
  | user u =>
    rcases stepRecord_drawn hd with ⟨huser, -⟩ | ⟨hgroup, -⟩
    · simp [ho] at huser
    · simp [ho] at hgroup
  | switch s =>
    rw [stepRecord, stepSwitch_drawn] at hd
    split_ifs at hd
    · rcases List.mem_append.mp hd with hswitch | husage
      · exact ⟨s, hrecord, (Drawn.mem_of.mp hswitch).2⟩
      · simp [(Drawn.mem_of.mp husage).1] at ho
    · simp at hd

/-- An event of the schedule is about a task of the machine that is not idle. -/
theorem task_of_mem_draws {tasks : Set Task} {current : Core → Task} {records : List Record}
    (hschedule : Schedule tasks current (Record.switches records)) {d : Drawn}
    (hd : d ∈ job.draws job.start records) (ho : d.origin = .schedule) :
    d.event.pid = schedulePid ∧
      ∃ task ∈ tasks, ¬task.IsIdle ∧ d.event.name = task.name ∧ d.event.tid = some task.tid := by
  obtain ⟨s, hswitch, hevent⟩ := exists_switch_of_mem_draws hd ho
  obtain ⟨hprevious, next, hnext, hleads⟩ :=
    hschedule.tasks_mem (Record.mem_switches.mpr hswitch)
  rcases List.mem_append.mp hevent with hended | hbegun
  · obtain ⟨tid, htid, -, he⟩ := mem_scheduleEvents.mp hended
    rw [s.outgoing?_eq] at htid
    obtain ⟨hbusy, rfl⟩ := Task.thread?_eq_some_iff.mp htid
    rw [he]
    exact ⟨rfl, s.previous, hprevious, hbusy, rfl, rfl⟩
  · obtain ⟨tid, htid, -, he⟩ := mem_scheduleEvents.mp hbegun
    obtain ⟨hbusy, rfl⟩ := Task.thread?_eq_some_iff.mp (hleads.thread?_eq htid)
    rw [he]
    exact ⟨rfl, next, hnext, hbusy, hleads.name.symm, rfl⟩

end

/-- When the switches of a log are those of a machine, every thread ends and begins in turn on the
track of the schedule, as often as it leaves or enters a core, no idle task is drawn, and after each
line no core has two threads that are held as running. -/
theorem schedule_balanced {job : Job} {log : List Text} {tasks : Set Task} {current : Core → Task}
    (hcpu : job.views.cpu = true) (hall : job.processes = none)
    (hschedule : Schedule tasks current (Record.switches (Log.records job.clock log))) :
    let drawn := (job.convert log).drawn
    let started (tid : ThreadId) := ∃ core, ¬(current core).IsIdle ∧ (current core).tid = tid
    (∀ tid, (started tid → Phase.InTurn .finish (Drawn.phasesOn tid drawn)) ∧
      (¬started tid → Phase.InTurn .begin (Drawn.phasesOn tid drawn))) ∧
    (∀ tid, Drawn.phasesOn tid drawn =
      (Record.turns (job.intake log)).flatMap (Turn.phases tid)) ∧
    (∀ d ∈ drawn, d.origin = .schedule → d.event.pid = schedulePid ∧ ∃ task ∈ tasks,
      ¬task.IsIdle ∧ d.event.name = task.name ∧ d.event.tid = some task.tid) ∧
    ∀ before, before <+: log →
      ((job.run before).progress.load.running.map fun entry => entry.2.1).Nodup := by
  intro drawn started
  have hpart {before : List Text} (hp : before <+: log) :=
    hschedule.of_prefix (job.intake_switches_prefix hp)
  have hallows {before : List Text} (hp : before <+: log) :
      (Occupancy.ofTasks current).AllowsAll (Record.turns (job.intake before)) :=
    (hpart hp).allowsAll (isOk_of_mem_intake hcpu before)
  have hlog := hpart (List.prefix_refl log)
  refine ⟨fun tid => ?_, phasesOn_convert hcpu hall log, fun d hd ho => ?_, fun before hp => ?_⟩
  · have hturns := Occupancy.inTurn_phases (hallows (List.prefix_refl log)) hlog.occupancy_apart tid
    rw [Occupancy.ofTasks_holds_iff, ← phasesOn_convert hcpu hall] at hturns
    exact hturns
  · have hdraws := mem_draws_of_convert hd (by simp [ho]) (by simp [ho])
    exact task_of_mem_draws hlog hdraws ho
  · obtain ⟨halike, -⟩ := job.run_intake before
    have hempty : job.start.load.Placed (Occupancy.ofTasks current) := by
      intro entry hm
      simp [start, Load.new] at hm
    rw [halike.load]
    exact running_cores_nodup hcpu _ hempty (Load.new_bounded _ _) (hallows hp)

/-- A line about a switch from one task to the next. -/
def taskLine (stamp core task tid next nextTid : String) : Text :=
  stamp.toList ++ " (+0.000001000) host sched_switch: \x7b cpu_id = ".toList ++ core.toList ++
    " \x7d, \x7b procname = \"".toList ++ task.toList ++ "\", tid = ".toList ++ tid.toList ++
    " \x7d, \x7b next_comm = \"".toList ++ next.toList ++ "\", next_tid = ".toList ++
    nextTid.toList ++ " \x7d\n".toList

/-- The switch of such a line. -/
def taskSwitch (stamp cpu : String) (time : Micros) (core : Core) (previous : Task)
    (next nextTid : String) : Switch where
  header := {
    stamp := stamp.toList, time, core, cpu := cpu.toList
    host := "host".toList, provider := Line.switchName, event := Line.switchName
    process := previous.name, pid := previous.tid, tid := previous.tid
    payload := [("next_comm".toList, next.toList), ("next_tid".toList, nextTid.toList)] }

theorem taskSwitch_leadsTo (stamp cpu : String) (time : Micros) (core : Core) (previous : Task)
    {next : Task} {name tid : String} (hname : next.name = name.toList)
    (htid : Numeral.integer? tid.toList = some next.tid) :
    (taskSwitch stamp cpu time core previous name tid).LeadsTo next := by
  refine ⟨hname, fun found hfound => ?_⟩
  have hread := Header.integer?_eq_ok_iff.mp hfound
  exact Option.some.inj (htid.symm.trans hread)

def app : Task := ⟨"App".toList, 10⟩

def web : Task := ⟨"Web".toList, 11⟩

def idleOn (core : String) : Task := ⟨"swapper/".toList ++ core.toList, 0⟩

/-- A task gives its core to another one and moves to the other core. -/
def exchange : List Text :=
  [taskLine "[10.0001]" "0" "App" "10" "Web" "11",
    taskLine "[10.0002]" "1" "swapper/1" "0" "App" "10",
    taskLine "[10.0003]" "0" "Web" "11" "swapper/0" "0"]

def exchangeTasks : List Task := [app, web, idleOn "0", idleOn "1"]

def exchangeStart (core : Core) : Task := if core = 0 then app else idleOn "1"

theorem exchange_schedule :
    Schedule {t | t ∈ exchangeTasks} exchangeStart
      (Record.switches (Log.records ⟨none⟩ exchange)) := by
  have hswitches : Record.switches (Log.records ⟨none⟩ exchange) =
      [taskSwitch "[10.0001]" "0" 10000100 0 app "Web" "11",
        taskSwitch "[10.0002]" "1" 10000200 1 (idleOn "1") "App" "10",
        taskSwitch "[10.0003]" "0" 10000300 0 web "swapper/0" "0"] := by decide +kernel
  have htasks : web ∈ exchangeTasks ∧ app ∈ exchangeTasks ∧ idleOn "0" ∈ exchangeTasks ∧
      idleOn "1" ∈ exchangeTasks := by decide
  have hidle : (idleOn "0").IsIdle ∧ (idleOn "1").IsIdle := by decide
  have hother : web ≠ app ∧ idleOn "1" ≠ app ∧ idleOn "1" ≠ web := by decide
  have helse {core : Core} (hc : core ≠ 0) : exchangeStart core = idleOn "1" := if_neg hc
  rw [hswitches]
  refine ⟨?_, fun core => ?_, fun a b hsame hbusy => ?_, ?_⟩
  · have hdistinct : ∀ a ∈ exchangeTasks, ∀ b ∈ exchangeTasks,
        ¬a.IsIdle → ¬b.IsIdle → a.tid = b.tid → a = b := by decide
    exact hdistinct
  · by_cases hc : core = 0
    · rw [hc]
      exact htasks.2.1
    · rw [helse hc]
      exact htasks.2.2.2
  · have hzero {core : Core} (hb : ¬(exchangeStart core).IsIdle) : core = 0 := by
      by_contra hc
      rw [helse hc] at hb
      exact hb hidle.2
    exact (hzero hbusy).trans (hzero (hsame ▸ hbusy)).symm
  · refine ⟨rfl, web, htasks.1, taskSwitch_leadsTo _ _ _ _ _ rfl (by decide),
      .inr fun core hc => ?_,
      rfl, app, htasks.2.1, taskSwitch_leadsTo _ _ _ _ _ rfl (by decide),
      .inr fun core hc => ?_,
      rfl, idleOn "0", htasks.2.2.1, taskSwitch_leadsTo _ _ _ _ _ rfl (by decide),
      .inl hidle.1, trivial⟩
    · rw [helse hc]
      exact hother.2.2
    · show Function.update exchangeStart 0 web core ≠ app
      by_cases h0 : core = 0
      · rw [h0, Function.update_self]
        exact hother.1
      · rw [Function.update_of_ne h0, helse h0]
        exact hother.2.1

theorem schedule_balanced_exchange :
    twoCores.views.cpu = true ∧ twoCores.processes = none ∧
    Schedule {t | t ∈ exchangeTasks} exchangeStart
      (Record.switches (Log.records twoCores.clock exchange)) ∧
    (Drawn.phasesOn 10 (twoCores.convert exchange).drawn = [.finish, .begin] ∧
      Drawn.phasesOn 11 (twoCores.convert exchange).drawn = [.begin, .finish]) ∧
    Phase.InTurn .finish (Drawn.phasesOn 10 (twoCores.convert exchange).drawn) ∧
    Phase.InTurn .begin (Drawn.phasesOn 11 (twoCores.convert exchange).drawn) ∧
    ((twoCores.run exchange).progress.load.running.map fun entry => entry.2.1).Nodup := by
  obtain ⟨hturns, -, -, hrunning⟩ :=
    @schedule_balanced twoCores exchange _ _ rfl rfl exchange_schedule
  have hphases : Drawn.phasesOn 10 (twoCores.convert exchange).drawn = [.finish, .begin] ∧
      Drawn.phasesOn 11 (twoCores.convert exchange).drawn = [.begin, .finish] := by decide +kernel
  refine ⟨rfl, rfl, exchange_schedule, hphases, ?app, ?web,
    hrunning exchange (List.prefix_refl exchange)⟩
  all_goals generalize (twoCores.convert exchange).drawn = drawn at hturns
  case app =>
    apply (hturns 10).1
    refine ⟨0, ?_, rfl⟩
    decide
  case web =>
    apply (hturns 11).2
    intro h
    obtain ⟨core, -, htid⟩ := h
    unfold exchangeStart at htid
    split_ifs at htid
    · exact absurd htid (by decide)
    · exact absurd htid (by decide)

end Job
end TraceReport
