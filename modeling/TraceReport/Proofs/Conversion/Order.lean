import TraceReport.Proofs.Conversion.Intervals
import TraceReport.Proofs.Conversion.Times
import TraceReport.Proofs.Conversion.Views
import TraceReport.Proofs.Conversion.Windows

namespace TraceReport

theorem Clock.micros?_le {clock : Clock} {stamp : Text} {time : Micros}
    (h : clock.micros? stamp = some time) : time ≤ Micros.limit := by
  unfold micros? at h
  split at h
  · simp at h
  · dsimp only at h
    split_ifs at h with hle
    exact Option.some.inj h ▸ hle

theorem Log.time_le_limit {clock : Clock} {log : List Text} {s : Switch}
    (h : s ∈ Record.switches (Log.records clock log)) : s.header.time ≤ Micros.limit :=
  Clock.micros?_le (Log.micros?_of_mem (Record.mem_switches.mp h))

namespace UserRecord

variable {record : UserRecord} {tracepoint : Tracepoint} {e : Event}

theorem userEvents_time (h : e ∈ record.userEvents tracepoint) :
    e.time = some record.header.time := by
  unfold userEvents at h
  split at h
  · obtain rfl := List.mem_singleton.mp h
    rfl
  · obtain rfl := List.mem_singleton.mp h
    rfl
  · simp only [Block.objectEvents, List.mem_cons, List.not_mem_nil, or_false] at h
    rcases h with rfl | rfl | rfl | rfl <;> rfl
  · simp at h

theorem groupEvents_time {groups : Groups} (h : e ∈ record.groupEvents groups tracepoint) :
    e.time = some record.header.time := by
  unfold groupEvents at h
  split at h
  · obtain ⟨track, -, rfl⟩ := List.mem_map.mp h
    rfl
  · simp at h

end UserRecord

namespace Drawn

/-- One event is not later than another, as far as both have a time. -/
def NotLater (d e : Drawn) : Prop := ∀ t ∈ d.event.time, ∀ u ∈ e.event.time, t ≤ u

instance (d e : Drawn) : Decidable (d.NotLater e) :=
  inferInstanceAs (Decidable (∀ t ∈ d.event.time, _))

theorem notLater_of_times {d e : Drawn} {t u : Micros} (hd : d.event.time = some t)
    (he : e.event.time = some u) (hle : t ≤ u) : d.NotLater e := by
  intro t' ht u' hu
  rw [hd] at ht
  rw [he] at hu
  exact Option.some.inj ht ▸ Option.some.inj hu ▸ hle

end Drawn

namespace Job

section

variable {job : Job} {p : Progress} {d : Drawn}

theorem scheduleEvents_time {s : Switch} {phase : Phase} {task : Text} {tid? : Option ThreadId}
    {e : Event} (h : e ∈ job.scheduleEvents s phase task tid?) : e.time = some s.header.time := by
  obtain ⟨tid, -, -, rfl⟩ := mem_scheduleEvents.mp h
  rfl

/-- A record's events are at its own time, but for the counters of the window it closes. -/
theorem time_of_mem_stepRecord {record : Record} (hd : d ∈ (job.stepRecord p record).drawn) :
    if d.origin.isCounter then
      ∃ w, job.closes? p record = some w ∧ d.event.time = some w.ending
    else d.event.time = some record.header.time := by
  split_ifs with hcounter
  · have hmem : d ∈ Drawn.counters (job.stepRecord p record).drawn :=
      List.mem_filter.mpr ⟨hd, hcounter⟩
    rw [counters_stepRecord] at hmem
    obtain ⟨w, hw, he⟩ := List.mem_flatMap.mp (Drawn.mem_of.mp hmem).2
    exact ⟨w, Option.mem_toList.mp hw, (mem_counters he).2⟩
  · cases record with
    | user u =>
      rcases stepRecord_drawn hd with ⟨-, tracepoint, he⟩ | ⟨-, tracepoint, he⟩
      · exact UserRecord.userEvents_time he
      · exact UserRecord.groupEvents_time he
    | switch s =>
      rw [stepRecord, stepSwitch_drawn] at hd
      split_ifs at hd
      · rcases List.mem_append.mp hd with hswitch | husage
        · rcases List.mem_append.mp (Drawn.mem_of.mp hswitch).2 with hended | hbegun
          · exact scheduleEvents_time hended
          · exact scheduleEvents_time hbegun
        · exact absurd (by rw [(Drawn.mem_of.mp husage).1]; rfl) hcounter
      · simp at hd

theorem time_of_mem_draws {records : List Record} (hd : d ∈ job.draws job.start records)
    (hsingle : d.origin.isCounter = false) :
    ∃ record ∈ records, d.event.time = some record.header.time := by
  obtain ⟨before, record, hp, hstep⟩ := mem_draws hd
  have htime := time_of_mem_stepRecord hstep
  rw [hsingle] at htime
  exact ⟨record, hp.subset (by simp), htime⟩

end

end Job

namespace Drawn

/-- One event is not later than another one unless only the latter is a counter. -/
def Ordered (d e : Drawn) : Prop :=
  (e.origin.isCounter = true → d.origin.isCounter = true) → d.NotLater e

theorem ordered_of_single {d e : Drawn} (hsingle : d.origin.isCounter = false)
    (h : e.origin.isCounter = false → d.NotLater e) : d.Ordered e := by
  intro hcounters
  cases hec : e.origin.isCounter with
  | false => exact h hec
  | true => exact absurd (hcounters hec) (by simp [hsingle])

end Drawn

namespace Job

section

variable {job : Job} {records : List Record}

theorem stepRecord_ordered (p : Progress) (record : Record) :
    (job.stepRecord p record).drawn.Pairwise Drawn.Ordered := by
  refine List.pairwise_of_forall_mem_list fun d hd e he => ?_
  have hdtime := time_of_mem_stepRecord hd
  have hetime := time_of_mem_stepRecord he
  cases hdc : d.origin.isCounter with
  | false =>
    rw [hdc] at hdtime
    refine Drawn.ordered_of_single hdc fun hec => ?_
    rw [hec] at hetime
    exact Drawn.notLater_of_times hdtime hetime (Nat.le_refl _)
  | true =>
    intro _
    rw [hdc] at hdtime
    obtain ⟨w, hw, hdw⟩ := hdtime
    cases hec : e.origin.isCounter with
    | false =>
      rw [hec] at hetime
      exact Drawn.notLater_of_times hdw hetime (job.ending_le_of_closes? hw)
    | true =>
      rw [hec] at hetime
      obtain ⟨w', hw', hew⟩ := hetime
      obtain rfl := Option.some.inj (hw.symm.trans hw')
      exact Drawn.notLater_of_times hdw hew (Nat.le_refl _)

section

variable (hlimit : ∀ s ∈ Record.switches records, s.header.time ≤ Micros.limit)
include hlimit

/-- The window that is open does not end before any window that was closed. -/
theorem ending_le_windowEnd {w : Window} (hw : w ∈ job.windows job.start records) :
    ∃ ending, (job.after records).load.windowEnd = some ending ∧ w.ending ≤ ending := by
  obtain ⟨s, hs, hcpu, hle⟩ := job.ending_le_of_mem_windows hw
  obtain ⟨ending, hend, hafter⟩ :=
    (job.ahead_after hcpu records hlimit).closed w.ending (List.mem_map_of_mem hw)
  exact ⟨ending, hend, (Micros.le_after (hle.trans (hlimit s hs))).trans hafter⟩

theorem ending_le_of_closes?_later {w later : Window} {record : Record}
    (hw : w ∈ job.windows job.start records)
    (hlater : job.closes? (job.after records) record = some later) :
    w.ending ≤ later.ending := by
  obtain ⟨s, -, -, -, hopen, -⟩ := job.exists_switch_of_closes? hlater
  obtain ⟨ending, hend, hle⟩ := ending_le_windowEnd hlimit hw
  rw [Load.endAt, hend, Option.getD_some] at hopen
  exact hle.trans (Nat.le_of_eq hopen)

end

/-- What records in the order of their times draw is in that order too, but for counters after what
is none. -/
theorem draws_ordered (hlimit : ∀ s ∈ Record.switches records, s.header.time ≤ Micros.limit)
    (hsorted : (records.map fun r => r.header.time).Pairwise (· ≤ ·)) :
    (job.draws job.start records).Pairwise Drawn.Ordered := by
  induction records using List.reverseRecOn with
  | nil => exact List.Pairwise.nil
  | append_singleton before record ih =>
    rw [List.map_append, List.pairwise_append] at hsorted
    obtain ⟨hbefore, -, hlast⟩ := hsorted
    have hlimits : ∀ s ∈ Record.switches before, s.header.time ≤ Micros.limit := by
      intro s hs
      exact hlimit s (Record.mem_switches_of_initial (List.prefix_append before [record]) hs)
    have hle : ∀ r ∈ before, r.header.time ≤ record.header.time := by
      intro r hr
      exact hlast _ (List.mem_map_of_mem hr) _ List.mem_cons_self
    rw [draws_append, List.pairwise_append]
    refine ⟨ih hlimits hbefore, stepRecord_ordered _ record, fun d hd e he => ?_⟩
    have hetime := time_of_mem_stepRecord he
    cases hdc : d.origin.isCounter with
    | false =>
      obtain ⟨r, hr, hdtime⟩ := time_of_mem_draws hd hdc
      refine Drawn.ordered_of_single hdc fun hec => ?_
      rw [hec] at hetime
      exact Drawn.notLater_of_times hdtime hetime (hle r hr)
    | true =>
      intro _
      obtain ⟨w, hw, hdtime⟩ := job.time_of_mem_counters hd hdc
      cases hec : e.origin.isCounter with
      | false =>
        obtain ⟨s, hs, -, hend⟩ := job.ending_le_of_mem_windows hw
        rw [hec] at hetime
        exact Drawn.notLater_of_times hdtime hetime
          (hend.trans (hle _ (Record.mem_switches.mp hs)))
      | true =>
        rw [hec] at hetime
        obtain ⟨later, hlater, hew⟩ := hetime
        exact Drawn.notLater_of_times hdtime hew (ending_le_of_closes?_later hlimits hw hlater)

/-- What has a place in time at the end are the counters that fix the scale. -/
theorem reference_of_mem_closing {p : Progress} {d : Drawn}
    (hd : d ∈ Drawn.timed (job.closing p)) :
    job.views.cpu = true ∧ d.origin = .reference ∧ d.event.time = some p.load.ending := by
  obtain ⟨hclosing, hphase⟩ := List.mem_filter.mp hd
  have hnaming : ¬d.origin.isNaming = true := by
    intro hnaming
    exact of_decide_eq_true hphase ((closing_allows hclosing).naming.mpr hnaming)
  rcases origin_of_mem_closing hclosing with ho | ⟨view, ho⟩
  · have htime := job.time_of_mem_reference hclosing ho
    rw [mem_closing] at hclosing
    simp only [ho, reduceCtorEq, false_and, and_false, true_and, false_or, or_false] at hclosing
    exact ⟨hclosing.1, ho, htime⟩
  · exact absurd (by rw [ho]; rfl) hnaming

/-- The counters that fix the scale come after all others, and so do their times. -/
theorem timed_ordered (hlimit : ∀ s ∈ Record.switches records, s.header.time ≤ Micros.limit)
    (hsorted : (records.map fun r => r.header.time).Pairwise (· ≤ ·)) :
    (Drawn.timed (job.draws job.start records ++
      job.closing (job.after records))).Pairwise Drawn.Ordered := by
  rw [Drawn.timed, List.filter_append, List.pairwise_append]
  refine ⟨(draws_ordered hlimit hsorted).filter _, ?_, fun d hd r hr => ?_⟩
  · refine List.pairwise_of_forall_mem_list fun d hd e he _ => ?_
    have hdtime := (reference_of_mem_closing hd).2.2
    have hetime := (reference_of_mem_closing he).2.2
    exact Drawn.notLater_of_times hdtime hetime (Nat.le_refl _)
  · obtain ⟨-, ho, hrtime⟩ := reference_of_mem_closing hr
    cases hdc : d.origin.isCounter with
    | false =>
      refine Drawn.ordered_of_single hdc fun hrc => ?_
      rw [ho] at hrc
      exact absurd hrc (by decide)
    | true =>
      intro _
      obtain ⟨w, hw, hdtime⟩ := job.time_of_mem_counters (List.mem_filter.mp hd).1 hdc
      obtain ⟨ending, hend, hle⟩ := ending_le_windowEnd hlimit hw
      rw [Load.ending, hend, Option.getD_some] at hrtime
      exact Drawn.notLater_of_times hdtime hrtime hle

section

variable (hlimit : ∀ s ∈ Record.switches records, s.header.time ≤ Micros.limit)
  (hread : job.views.cpu = true → ∀ s ∈ Record.switches records, s.incoming.isOk = true)
  {before : List Record} {d c : Drawn}
include hlimit hread

/-- A task enters or leaves a core before the window that is open after it ends. -/
theorem schedule_le_windowEnd (hcpu : job.views.cpu = true) (hinit : before <+: records)
    (hd : d ∈ job.draws job.start before) (ho : d.origin = .schedule) :
    ∃ t ending, d.event.time = some t ∧ (job.after before).load.windowEnd = some ending ∧
      t ≤ ending := by
  obtain ⟨s, hs, he⟩ := exists_switch_of_mem_draws hd ho
  have hbefore : s ∈ Record.switches before := Record.mem_switches.mpr hs
  have hswitch : s ∈ Record.switches records := Record.mem_switches_of_initial hinit hbefore
  have hahead := job.ahead_after hcpu before fun s' hs' =>
    hlimit s' (Record.mem_switches_of_initial hinit hs')
  have hseen : s.header.time ∈ Record.switchTimes before :=
    Record.mem_switchTimes.mpr ⟨s, hbefore, hread hcpu s hswitch, rfl⟩
  obtain ⟨ending, hend, hle⟩ := hahead.seen s.header.time hseen
  refine ⟨s.header.time, ending, ?_, hend, (Micros.le_after (hlimit s hswitch)).trans hle⟩
  rcases List.mem_append.mp he with hended | hbegun
  · exact scheduleEvents_time hended
  · exact scheduleEvents_time hbegun

theorem schedule_notLater_usage {record : Record} (hinit : before ++ [record] <+: records)
    (hd : d ∈ job.draws job.start before) (ho : d.origin = .schedule)
    (hc : c ∈ (job.stepRecord (job.after before) record).drawn) (husage : c.origin = .usage) :
    d.NotLater c := by
  have hctime := time_of_mem_stepRecord hc
  rw [husage, if_pos (by rfl)] at hctime
  obtain ⟨w, hw, hctime⟩ := hctime
  obtain ⟨s, -, hcpu, -, hopen, -⟩ := job.exists_switch_of_closes? hw
  have hbefore : before <+: records := (List.prefix_append before [record]).trans hinit
  obtain ⟨t, ending, hdtime, hend, hle⟩ := schedule_le_windowEnd hlimit hread hcpu hbefore hd ho
  rw [Load.endAt, hend, Option.getD_some] at hopen
  exact Drawn.notLater_of_times hdtime hctime (hopen ▸ hle)

theorem schedule_notLater_reference (hd : d ∈ job.draws job.start records)
    (ho : d.origin = .schedule) (hc : c ∈ Drawn.timed (job.closing (job.after records))) :
    d.NotLater c := by
  obtain ⟨hcpu, -, hctime⟩ := reference_of_mem_closing hc
  obtain ⟨t, ending, hdtime, hend, hle⟩ :=
    schedule_le_windowEnd hlimit hread hcpu (List.prefix_refl _) hd ho
  rw [Load.ending, hend, Option.getD_some] at hctime
  exact Drawn.notLater_of_times hdtime hctime hle

end

end

section

variable {job : Job} {log : List Text} {finished : Finished}
  (hok : (job.convert log).result = .ok finished)
include hok

theorem mem_timed_convert {d : Drawn} (hd : d ∈ Drawn.timed (job.convert log).drawn) :
    d ∈ job.draws job.start (Log.records job.clock log) ∨
      d ∈ Drawn.timed (job.closing (job.after (Log.records job.clock log))) := by
  rw [(convert_drawn hok).2, Drawn.timed, List.filter_append] at hd
  rcases List.mem_append.mp hd with hdraws | hclosing
  · exact .inl (List.mem_filter.mp hdraws).1
  · exact .inr hclosing

theorem isSome_time {d : Drawn} (hd : d ∈ Drawn.timed (job.convert log).drawn) :
    d.event.time.isSome = true := by
  rcases mem_timed_convert hok hd with hdraws | hclosing
  · cases hdc : d.origin.isCounter with
    | false =>
      obtain ⟨record, -, htime⟩ := time_of_mem_draws hdraws hdc
      rw [htime, Option.isSome_some]
    | true =>
      obtain ⟨w, -, htime⟩ := job.time_of_mem_counters hdraws hdc
      rw [htime, Option.isSome_some]
  · rw [(reference_of_mem_closing hclosing).2.2, Option.isSome_some]

theorem not_counter_of_no_cores (hcpu : job.views.cpu = false) {d : Drawn}
    (hd : d ∈ Drawn.timed (job.convert log).drawn) : d.origin.isCounter = false := by
  rcases mem_timed_convert hok hd with hdraws | hclosing
  · by_contra hcounter
    obtain ⟨w, hw, -⟩ := job.time_of_mem_counters hdraws (by simpa using hcounter)
    rw [job.windows_of_no_cores hcpu] at hw
    exact List.not_mem_nil hw
  · have hon := (reference_of_mem_closing hclosing).1
    rw [hcpu] at hon
    exact absurd hon Bool.false_ne_true

end

/-- A log in the order of its times has a report in that order, but for counters: they carry the
end of a window, and may come after events that are later. No counter is later than what comes
after it, and of the schedule only the events of the very switch that closes a window may be later
than its counters. Without cores all of a report is in order. -/
theorem timeline_in_order {job : Job} {log : List Text} {finished : Finished}
    (hok : (job.convert log).result = .ok finished)
    (hsorted : ((Log.records job.clock log).map fun r => r.header.time).Pairwise (· ≤ ·)) :
    let records := Log.records job.clock log
    let timeline := Drawn.timed (job.convert log).drawn
    (∀ d ∈ timeline, d.event.time.isSome = true) ∧
    timeline.Pairwise (fun earlier later =>
      (later.event.phase = .counter → earlier.event.phase = .counter) →
        earlier.NotLater later) ∧
    (∀ before record, before ++ [record] <+: records →
      ∀ d ∈ job.draws job.start before, d.origin = .schedule →
        ∀ c ∈ (job.stepRecord (job.after before) record).drawn, c.origin = .usage →
          d.NotLater c) ∧
    (∀ d ∈ timeline, d.origin = .schedule → ∀ c ∈ timeline, c.origin = .reference →
      d.NotLater c) ∧
    (job.views.cpu = false → timeline.Pairwise Drawn.NotLater) := by
  intro records timeline
  have hlimit : ∀ s ∈ Record.switches records, s.header.time ≤ Micros.limit :=
    fun s hs => Log.time_le_limit hs
  have hread : job.views.cpu = true → ∀ s ∈ Record.switches records, s.incoming.isOk = true :=
    fun hcpu => isOk_of_convert hcpu hok
  have hordered : timeline.Pairwise Drawn.Ordered := by
    rw [show timeline = _ from congrArg Drawn.timed (convert_drawn hok).2]
    exact timed_ordered hlimit hsorted
  refine ⟨fun d hd => isSome_time hok hd, ?_, ?_, ?_, fun hcpu => ?_⟩
  · refine hordered.imp_of_mem fun {d e} hd he hle hcounters => hle fun hec => ?_
    have hphases := convert_allows hok (List.mem_filter.mp hd).1
    have hlater := convert_allows hok (List.mem_filter.mp he).1
    exact hphases.counter.mp (hcounters (hlater.counter.mpr hec))
  · intro before record hinit d hd ho c hc husage
    exact schedule_notLater_usage hlimit hread hinit hd ho hc husage
  · intro d hd ho c hc hreference
    have hdraws : d ∈ job.draws job.start records := by
      refine (mem_timed_convert hok hd).resolve_right fun hclosing => ?_
      exact absurd (ho.symm.trans (reference_of_mem_closing hclosing).2.1) (by decide)
    have hclosing : c ∈ Drawn.timed (job.closing (job.after records)) := by
      refine (mem_timed_convert hok hc).resolve_left fun hdraws => ?_
      simpa [hreference] using origin_of_mem_draws hdraws
    exact schedule_notLater_reference hlimit hread hdraws ho hclosing
  · refine hordered.imp_of_mem fun {d e} _ he hle => hle fun hec => ?_
    rw [not_counter_of_no_cores hok hcpu he] at hec
    exact absurd hec Bool.false_ne_true

/-- A message, and two switches with the end of a window between them. -/
def lateSwitches : List Text :=
  [userLine "App", switchLine, taskLine "[10.020100000]" "0" "swapper/0" "0" "App" "101"]

/-- The counters of the window that ends at 10010200 come after the switch that closes it. -/
theorem timeline_in_order_late :
    let timeline := Drawn.timed (allViewsJob.convert lateSwitches).drawn
    (∃ finished, (allViewsJob.convert lateSwitches).result = .ok finished) ∧
    ((Log.records allViewsJob.clock lateSwitches).map fun r => r.header.time).Pairwise (· ≤ ·) ∧
    timeline.map (fun d => (d.origin, d.event.time)) =
      [(.user, some 10000100), (.group, some 10000100), (.schedule, some 10000200),
        (.schedule, some 10020100), (.usage, some 10010200), (.usage, some 10010200),
        (.reference, some 10030100), (.reference, some 10030100)] ∧
    timeline.Pairwise (fun earlier later =>
      (later.event.phase = .counter → earlier.event.phase = .counter) →
        earlier.NotLater later) := by
  intro timeline
  obtain ⟨finished, hok⟩ : ∃ finished, (allViewsJob.convert lateSwitches).result = .ok finished :=
    exists_ok_of_isOk (by decide +kernel)
  have hsorted : ((Log.records allViewsJob.clock lateSwitches).map
      fun r => r.header.time).Pairwise (· ≤ ·) := by decide +kernel
  have htimes : timeline.map (fun d => (d.origin, d.event.time)) =
      [(.user, some 10000100), (.group, some 10000100), (.schedule, some 10000200),
        (.schedule, some 10020100), (.usage, some 10010200), (.usage, some 10010200),
        (.reference, some 10030100), (.reference, some 10030100)] := by decide +kernel
  obtain ⟨-, hordered, -⟩ := timeline_in_order hok hsorted
  exact ⟨⟨finished, hok⟩, hsorted, htimes, hordered⟩

/-- A report in the order of its times for a log in the order of its times. -/
def KeepsTimeOrder (job : Job) (log : List Text) : Prop :=
  (job.convert log).result.isOk = true →
    ((Log.records job.clock log).map fun r => r.header.time).Pairwise (· ≤ ·) →
    (Drawn.timed (job.convert log).drawn).Pairwise Drawn.NotLater

instance (job : Job) (log : List Text) : Decidable (job.KeepsTimeOrder log) :=
  inferInstanceAs (Decidable (_ → _ → _))

/-- The counters of a window come after the events of the switch that closes it late, and without
a switch the scale is fixed at zero after all events. -/
theorem not_keepsTimeOrder :
    plan allViews Options.new = .ok allViewsJob ∧
      ¬KeepsTimeOrder allViewsJob lateSwitches ∧ ¬KeepsTimeOrder allViewsJob [userLine "App"] :=
  ⟨rfl, by decide +kernel, by decide +kernel⟩

end Job
end TraceReport
