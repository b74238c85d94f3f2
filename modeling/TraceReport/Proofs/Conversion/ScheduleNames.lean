import TraceReport.Proofs.Conversion.Intervals
import TraceReport.Proofs.Conversion.Phases
import TraceReport.Proofs.Conversion.Plan
import TraceReport.Proofs.Conversion.Sources
import TraceReport.Proofs.Conversion.UserTracks
import TraceReport.Proofs.Track.Groups

namespace TraceReport

namespace Event

/-- Whether an element names a thread on a track. -/
def namesThread (pid : ProcessId) (tid : ThreadId) (e : Event) : Bool :=
  e.phase = .naming && e.name = "thread_name".toList && e.pid = pid && e.tid = some tid

section

variable {pid : ProcessId} {tid : ThreadId}

theorem namesThread_of_phase {e : Event} (h : e.phase ≠ .naming) :
    e.namesThread pid tid = false := by
  simp [namesThread, h]

theorem namesThread_of_pid {e : Event} (h : e.pid ≠ pid) : e.namesThread pid tid = false := by
  simp [namesThread, h]

@[simp] theorem namesThread_processName (other : ProcessId) (label : Text) :
    (processName other label).namesThread pid tid = false := by
  have hname : (processName other label).name ≠ "thread_name".toList := by
    show "process_name".toList ≠ "thread_name".toList
    decide
  simp only [namesThread, hname, decide_false, Bool.and_false, Bool.false_and]

@[simp] theorem namesThread_threadName (other : ProcessId) (thread : ThreadId) (label : Text) :
    (threadName other thread label).namesThread pid tid =
      (decide (other = pid) && decide (thread = tid)) := by
  have hphase : (threadName other thread label).phase = .naming := rfl
  have hname : (threadName other thread label).name = "thread_name".toList := rfl
  have hpid : (threadName other thread label).pid = other := rfl
  have htid : (threadName other thread label).tid = some thread := rfl
  rw [namesThread, hphase, hname, hpid, htid]
  simp only [decide_true, Bool.true_and, Option.some.injEq]

end

end Event

namespace Drawn

/-- The names of a thread on a track. -/
def threadNames (pid : ProcessId) (tid : ThreadId) (drawn : List Drawn) : List Event :=
  (events drawn).filter (Event.namesThread pid tid)

section

variable (pid : ProcessId) (tid : ThreadId)

theorem threadNames_append (drawn more : List Drawn) :
    threadNames pid tid (drawn ++ more) = threadNames pid tid drawn ++ threadNames pid tid more := by
  simp [threadNames, events]

theorem threadNames_of (origin : Origin) (list : List Event) :
    threadNames pid tid (Drawn.of origin list) = list.filter (Event.namesThread pid tid) := by
  rw [threadNames, events_of]

end

end Drawn

namespace TrackNames

/-- How often a thread is named on a track, when the threads of a process are named on the track
`own` gives for it. -/
theorem length_threadNames (own : ProcessId → ProcessId) (notes : List Note) (pid : ProcessId)
    (tid : ThreadId) :
    (((after notes).threadLabels.map fun (owner, thread, label) =>
        Event.threadName (own owner) thread label).filter (Event.namesThread pid tid)).length =
      (Note.lastOn tid notes).elim 0 fun n => if own n.pid = pid then 1 else 0 := by
  obtain ⟨label, hlabels⟩ := filter_threadLabels notes tid
  have hsplit : (after notes).threadLabels.filter
      (fun entry => (Event.threadName (own entry.1) entry.2.1 entry.2.2).namesThread pid tid) =
      ((after notes).threadLabels.filter fun entry => entry.2.1 = tid).filter
        fun entry => own entry.1 = pid := by
    rw [List.filter_filter]
    apply List.filter_congr
    intro entry _
    exact Event.namesThread_threadName _ _ _
  rw [List.filter_map, List.length_map]
  refine (congrArg List.length hsplit).trans ?_
  rw [hlabels]
  cases Note.lastOn tid notes with
  | none => rfl
  | some n =>
    by_cases hp : own n.pid = pid
    · simp [hp]
    · simp [hp]

end TrackNames

namespace Job

section

variable {job : Job}

theorem threadNames_draws (records : List Record) (pid : ProcessId) (tid : ThreadId) :
    Drawn.threadNames pid tid (job.draws job.start records) = [] := by
  apply List.filter_eq_nil_iff.mpr
  intro e he
  obtain ⟨d, hd, rfl⟩ := List.mem_map.mp he
  rw [Event.namesThread_of_phase (draws_phase_ne_naming hd)]
  exact Bool.false_ne_true

/-- Threads are named on the track of the schedule with the schedule, and by the user view when it
is the track of their process. -/
theorem threadNames_closing (hcpu : job.views.cpu = true)
    (hgroups : ∀ name pid, job.groups.pid? name = some pid → pid ≠ schedulePid) (p : Progress)
    (tid : ThreadId) :
    Drawn.threadNames schedulePid tid (job.closing p) =
      (if job.views.user then (userNames p).filter (Event.namesThread schedulePid tid) else []) ++
        (scheduleNames p).filter (Event.namesThread schedulePid tid) := by
  have hcores : (coreNames p).filter (Event.namesThread schedulePid tid) = [] := by
    apply List.filter_eq_nil_iff.mpr
    intro e he
    rw [Event.namesThread_of_pid (by rw [coreNames_pid he]; decide)]
    exact Bool.false_ne_true
  have hreference : p.load.referenceEvents.filter (Event.namesThread schedulePid tid) = [] := by
    apply List.filter_eq_nil_iff.mpr
    intro e he
    rw [Event.namesThread_of_phase (by rw [(mem_counters he).1]; decide)]
    exact Bool.false_ne_true
  have hgroup : (job.groupNames p).filter (Event.namesThread schedulePid tid) = [] := by
    apply List.filter_eq_nil_iff.mpr
    intro e he
    rcases List.mem_append.mp he with htrack | hlane
    · obtain ⟨track, -, rfl⟩ := List.mem_map.mp htrack
      simp
    · obtain ⟨⟨pid, lane⟩, hm, rfl⟩ := List.mem_map.mp hlane
      rw [Groups.sighted_eq_filter] at hm
      obtain ⟨lane', -, hplaced⟩ := List.mem_filterMap.mp (List.mem_filter.mp hm).1
      obtain ⟨pid', hpid, heq⟩ := Option.map_eq_some_iff.mp hplaced
      cases heq
      simp [hgroups _ _ hpid]
  have huser : Drawn.threadNames schedulePid tid
      (if job.views.user then Drawn.of (.naming .user) (userNames p) else []) =
        if job.views.user then (userNames p).filter (Event.namesThread schedulePid tid) else [] := by
    split_ifs
    · exact Drawn.threadNames_of _ _ _ _
    · rfl
  have hlanes : Drawn.threadNames schedulePid tid
      (if job.views.group then Drawn.of (.naming .group) (job.groupNames p) else []) = [] := by
    split_ifs
    · rw [Drawn.threadNames_of, hgroup]
    · rfl
  unfold closing
  rw [if_pos hcpu]
  simp only [Drawn.threadNames_append, Drawn.threadNames_of, huser, hcores, hreference, hlanes,
    List.nil_append, List.append_nil]

/-- The user view names a thread on the track of the process it belongs to. -/
theorem length_userNames (records : List Record) (pid : ProcessId) (tid : ThreadId) :
    ((userNames (job.after records)).filter (Event.namesThread pid tid)).length =
      (job.lastAbout tid records).elim 0 fun last => if last.header.pid = pid then 1 else 0 := by
  rw [userNames, List.filter_append, List.filter_eq_nil_iff.mpr ?processes, List.nil_append,
    after_names]
  case processes =>
    intro e he
    obtain ⟨entry, -, rfl⟩ := List.mem_map.mp he
    simp
  refine (TrackNames.length_threadNames id _ pid tid).trans ?_
  rw [lastOn_eq]
  cases job.lastAbout tid records with
  | none => rfl
  | some last => rfl

theorem length_scheduleNames (records : List Record) (tid : ThreadId) :
    ((scheduleNames (job.after records)).filter (Event.namesThread schedulePid tid)).length =
      (job.lastAbout tid records).elim 0 fun _ => 1 := by
  have hprocess (label : Text) :
      ¬(Event.processName schedulePid label).namesThread schedulePid tid = true := by simp
  rw [scheduleNames, List.filter_cons_of_neg (hprocess _), after_names]
  refine (TrackNames.length_threadNames (fun _ => schedulePid) _ schedulePid tid).trans ?_
  rw [lastOn_eq]
  cases job.lastAbout tid records with
  | none => rfl
  | some last =>
    show (if schedulePid = schedulePid then 1 else 0) = 1
    exact if_pos rfl

theorem lastAbout_eq_none_iff (hcpu : job.views.cpu = true) (tid : ThreadId)
    (records : List Record) :
    job.lastAbout tid records = none ↔
      ∀ record ∈ records, record.header.tid = tid → (idleThread? record.header.process).isSome := by
  have hnotes (record : Record) : job.notes record = true := by
    cases record with
    | switch s => exact hcpu
    | user u => rfl
  have hidle (record : Record) :
      record.header.note.isIdle = (idleThread? record.header.process).isSome := rfl
  rw [lastAbout, List.getLast?_eq_none_iff, List.filter_eq_nil_iff]
  refine forall_congr' fun record => forall_congr' fun _ => ?_
  rw [hnotes record, hidle record]
  cases (idleThread? record.header.process).isSome with
  | true => simp
  | false => simp

/-- A task that leaves a core is one that a record is about. -/
theorem exists_lastAbout_of_finish (hcpu : job.views.cpu = true) {records : List Record} {d : Drawn}
    (hd : d ∈ job.draws job.start records) (ho : d.origin = .schedule)
    (hphase : d.event.phase = .finish) {tid : ThreadId} (htid : d.event.tid = some tid) :
    ∃ last, job.lastAbout tid records = some last := by
  obtain ⟨s, hswitch, hevent⟩ := exists_switch_of_mem_draws hd ho
  rcases List.mem_append.mp hevent with hended | hbegun
  · obtain ⟨thread, hthread, -, he⟩ := mem_scheduleEvents.mp hended
    have hsame : thread = tid := by
      rw [he] at htid
      exact Option.some.inj htid
    have hbusy : idleThread? s.header.process = none ∧ s.header.tid = thread := by
      unfold Switch.outgoing? at hthread
      cases hi : idleThread? s.header.process with
      | none =>
        rw [hi] at hthread
        exact ⟨rfl, Option.some.inj hthread⟩
      | some idle => simp [hi] at hthread
    have hnote : (Record.switch s).header.note.isIdle = false := by
      simp [Note.isIdle, Header.note, Record.header, hbusy.1]
    exact exists_lastAbout hswitch hcpu hnote (hbusy.2.trans hsame)
  · obtain ⟨thread, -, -, he⟩ := mem_scheduleEvents.mp hbegun
    rw [he] at hphase
    simp [Switch.event] at hphase

end

section

variable {settings : Settings} {options : Options} {job : Job}

theorem group_pid_ne (hplan : Job.plan settings options = .ok job) {name : Text} {pid : ProcessId}
    (h : job.groups.pid? name = some pid) : pid ≠ schedulePid := by
  have hjob := congrArg Job.groups (eq_of_plan hplan).2.2
  rw [hjob] at h
  dsimp only at h
  split_ifs at h
  · intro hsame
    have hle : schedulePid ≤ Groups.firstPid := hsame ▸ Groups.pid?_le h
    exact absurd hle (by decide)
  · simp [Groups.pid?, Groups.none] at h

/-- How often a thread is named on the track of the schedule. -/
theorem length_names (hplan : Job.plan settings options = .ok job) (hcpu : job.views.cpu = true)
    {log : List Text} {finished : Finished} (hok : (job.convert log).result = .ok finished)
    (tid : ThreadId) :
    (Drawn.threadNames schedulePid tid (job.convert log).drawn).length =
      (job.lastAbout tid (Log.records job.clock log)).elim 0 fun last =>
        if job.views.user ∧ last.header.pid = schedulePid then 2 else 1 := by
  have hgroups : ∀ name pid, job.groups.pid? name = some pid → pid ≠ schedulePid := by
    intro name pid hpid
    exact group_pid_ne hplan hpid
  rw [(convert_drawn hok).2, Drawn.threadNames_append, threadNames_draws, List.nil_append,
    threadNames_closing hcpu hgroups, List.length_append, length_scheduleNames]
  cases huser : job.views.user with
  | false => cases job.lastAbout tid _ <;> simp
  | true =>
    rw [if_pos rfl, length_userNames]
    cases job.lastAbout tid _ with
    | none => rfl
    | some last => by_cases hp : last.header.pid = schedulePid <;> simp [hp]

/-- On the track of the schedule, a thread is named when some record is about it that is not of an
idle task, and every task that leaves a core is. A task that is only ever seen to enter has no name.
The user view names a thread there once more when the track is that of its process. -/
theorem names_on_schedule {log : List Text} {finished : Finished}
    (hplan : Job.plan settings options = .ok job) (hcpu : job.views.cpu = true)
    (hok : (job.convert log).result = .ok finished) :
    let records := Log.records job.clock log
    let drawn := (job.convert log).drawn
    let names (tid : ThreadId) := Drawn.threadNames schedulePid tid drawn
    (∀ tid, names tid = [] ↔ ∀ record ∈ records, record.header.tid = tid →
      (idleThread? record.header.process).isSome) ∧
    (∀ tid last, job.lastAbout tid records = some last →
      (names tid).length = if job.views.user ∧ last.header.pid = schedulePid then 2 else 1) ∧
    ∀ d ∈ drawn, d.origin = .schedule → d.event.phase = .finish →
      ∀ tid ∈ d.event.tid, names tid ≠ [] := by
  intro records drawn names
  have hlength (tid : ThreadId) : (names tid).length =
      (job.lastAbout tid records).elim 0 fun last =>
        if job.views.user ∧ last.header.pid = schedulePid then 2 else 1 :=
    length_names hplan hcpu hok tid
  have hnone (tid : ThreadId) : names tid = [] ↔ job.lastAbout tid records = none := by
    rw [← List.length_eq_zero_iff, hlength]
    cases job.lastAbout tid records with
    | none => simp
    | some last =>
      rw [Option.elim_some]
      split_ifs <;> simp
  refine ⟨fun tid => ?_, fun tid last hlast => ?_, fun d hd ho hphase tid htid => ?_⟩
  · rw [hnone, lastAbout_eq_none_iff hcpu]
  · rw [hlength, hlast, Option.elim_some]
  · have hdraws : d ∈ job.draws job.start records := by
      rw [show drawn = _ from (convert_drawn hok).2] at hd
      rcases List.mem_append.mp hd with hdraw | hclosing
      · exact hdraw
      · exact absurd hclosing (not_mem_closing (by simp [ho]) (by simp [ho]))
    obtain ⟨last, hlast⟩ := exists_lastAbout_of_finish hcpu hdraws ho hphase htid
    rw [ne_eq, hnone, hlast]
    exact Option.some_ne_none last

end

/-- A task that is given a core and keeps it. -/
def entrance : List Text := [taskLine "[10.000100000]" "0" "swapper/0" "0" "App" "55"]

def twoCoresOptions : Options := { Options.new with periodMillis := 1, cores := 2 }

/-- Of two tasks, the one that leaves its core has a name. -/
theorem names_on_schedule_exchange :
    Job.plan twoCores.settings twoCoresOptions = .ok twoCores ∧ twoCores.views.cpu = true ∧
    (∃ finished, (twoCores.convert exchange).result = .ok finished) ∧
    (Drawn.threadNames schedulePid 10 (twoCores.convert exchange).drawn).length = 1 := by
  have hplan : Job.plan twoCores.settings twoCoresOptions = .ok twoCores := rfl
  obtain ⟨finished, hok⟩ : ∃ finished, (twoCores.convert exchange).result = .ok finished :=
    exists_ok_of_isOk (by decide +kernel)
  obtain ⟨last, hlast⟩ : ∃ last,
      twoCores.lastAbout 10 (Log.records twoCores.clock exchange) = some last :=
    Option.isSome_iff_exists.mp (by decide +kernel)
  have hcount := (names_on_schedule hplan rfl hok).2.1 10 last hlast
  rw [if_neg (by simp [twoCores])] at hcount
  exact ⟨hplan, rfl, ⟨finished, hok⟩, hcount⟩

/-- Every thread with an event on the track of the schedule has one name there. -/
def ScheduleTracksNamed (job : Job) (log : List Text) : Prop :=
  let drawn := (job.convert log).drawn
  (job.convert log).result.isOk → ∀ d ∈ drawn, d.origin = .schedule → ∀ tid ∈ d.event.tid,
    (Drawn.threadNames schedulePid tid drawn).length = 1

instance (job : Job) (log : List Text) : Decidable (job.ScheduleTracksNamed log) :=
  inferInstanceAs (Decidable (_ → _))

/-- A task that enters has an event on its track, but no name for it. -/
theorem schedule_track_unnamed :
    Job.plan twoCores.settings twoCoresOptions = .ok twoCores ∧ twoCores.views.cpu = true ∧
      ¬ScheduleTracksNamed twoCores entrance :=
  ⟨rfl, rfl, by decide +kernel⟩

end Job
end TraceReport
