import TraceReport.Proofs.Conversion.CoreTime
import TraceReport.Proofs.Conversion.Phases
import TraceReport.Proofs.Load.WindowEnds

namespace TraceReport

namespace Record

/-- The times of the switches that can be read through. -/
def switchTimes (records : List Record) : List Micros :=
  ((switches records).filter fun s => s.incoming.isOk).map fun s => s.header.time

theorem switchTimes_append_user (records : List Record) (u : UserRecord) :
    switchTimes (records ++ [.user u]) = switchTimes records := by
  rw [switchTimes, switches_append_user, switchTimes]

theorem switchTimes_append_switch (records : List Record) (s : Switch) :
    switchTimes (records ++ [.switch s]) =
      switchTimes records ++ if s.incoming.isOk then [s.header.time] else [] := by
  rw [switchTimes, switches_append_switch, List.filter_append, List.map_append, switchTimes]
  cases hread : s.incoming.isOk <;> simp [hread]

theorem mem_switchTimes {records : List Record} {time : Micros} :
    time ∈ switchTimes records ↔
      ∃ s ∈ switches records, s.incoming.isOk = true ∧ s.header.time = time := by
  simp only [switchTimes, List.mem_map, List.mem_filter, and_assoc]

end Record

namespace Switch

theorem onLoad_of_ok {s : Switch} (h : s.incoming.isOk = true) (load : Load) :
    s.onLoad load = load.take s.turn := by
  obtain ⟨next, hnext⟩ := exists_ok_of_isOk h
  rw [onLoad, hnext]

theorem onLoad_of_not_ok {s : Switch} (h : ¬s.incoming.isOk = true) (load : Load) :
    s.onLoad load = (load.vacated s.turn, none) := by
  cases hnext : s.incoming with
  | error fault => rw [onLoad, hnext]
  | ok next => exact absurd (by rw [hnext]; rfl) h

end Switch

namespace Load

variable {load : Load} {times ends : List Micros}

/-- From the first switch on a window is open. -/
theorem onLoad_windowEnd (load : Load) (s : Switch) :
    ∃ ending, (s.onLoad load).1.windowEnd = some ending := by
  by_cases hread : s.incoming.isOk = true
  · rw [Switch.onLoad_of_ok hread]
    by_cases hearly : s.turn.time < load.endAt s.turn.time
    · exact ⟨_, (take_early hearly).1⟩
    · exact ⟨_, (take_late hearly).1⟩
  · rw [Switch.onLoad_of_not_ok hread]
    exact ⟨_, load.vacated_windowEnd s.turn⟩

theorem Ahead.onLoad (h : load.Ahead times ends) (hperiod : 1 ≤ load.period) {s : Switch}
    (htime : s.header.time ≤ Micros.limit) :
    (s.onLoad load).1.Ahead (times ++ if s.incoming.isOk then [s.header.time] else [])
      (ends ++ ((s.onLoad load).2.map Window.ending).toList) := by
  by_cases hread : s.incoming.isOk = true
  · rw [Switch.onLoad_of_ok hread, if_pos hread]
    exact h.take hperiod htime
  · rw [Switch.onLoad_of_not_ok hread, if_neg hread, List.append_nil]
    simpa using h.vacated s.turn

end Load

namespace Drawn

/-- The counters of windows and of the scale. -/
def counters (drawn : List Drawn) : List Drawn := drawn.filter fun d => d.origin.isCounter

section

variable (drawn more : List Drawn)

@[simp] theorem counters_append : counters (drawn ++ more) = counters drawn ++ counters more :=
  List.filter_append _ _

@[simp] theorem counters_of (origin : Origin) (events : List Event) :
    counters (Drawn.of origin events) =
      if origin.isCounter then Drawn.of origin events else [] :=
  filter_of Origin.isCounter origin events

end

end Drawn

namespace Job

/-- The window that a record closes. -/
def closes? (job : Job) (p : Progress) : Record → Option Window
  | .switch s => if job.views.cpu then (s.onLoad p.load).2 else none
  | .user _ => none

/-- The windows that records close, one after the other. -/
def windows (job : Job) (p : Progress) : List Record → List Window
  | [] => []
  | record :: rest =>
    (job.closes? p record).toList ++ job.windows (job.stepRecord p record).progress rest

section

variable (job : Job)

theorem windows_append (p : Progress) (records : List Record) (record : Record) :
    job.windows p (records ++ [record]) = job.windows p records ++
      (job.closes? (records.foldl (fun p r => (job.stepRecord p r).progress) p)
        record).toList := by
  induction records generalizing p with
  | nil => simp [windows]
  | cons first rest ih =>
    rw [List.cons_append, windows, ih, windows, List.append_assoc]
    rfl

/-- The counters a record draws are those of the window it closes. -/
theorem counters_stepRecord (p : Progress) (record : Record) :
    Drawn.counters (job.stepRecord p record).drawn =
      Drawn.of .usage ((job.closes? p record).toList.flatMap Window.events) := by
  cases record with
  | switch s =>
    rw [stepRecord, stepSwitch_drawn, closes?]
    split_ifs
    · rw [Drawn.counters_append, Drawn.counters_of, Drawn.counters_of]
      cases (s.onLoad p.load).2 with
      | none => rfl
      | some w => simp [Origin.isCounter]
    · rfl
  | user u =>
    refine List.filter_eq_nil_iff.mpr fun d hd => ?_
    rcases stepRecord_drawn hd with ⟨ho, -⟩ | ⟨ho, -⟩ <;> simp [ho, Origin.isCounter]

theorem counters_draws (p : Progress) (records : List Record) :
    Drawn.counters (job.draws p records) =
      Drawn.of .usage ((job.windows p records).flatMap Window.events) := by
  induction records generalizing p with
  | nil => rfl
  | cons record rest ih =>
    rw [draws, windows, Drawn.counters_append, counters_stepRecord, ih, List.flatMap_append]
    exact List.map_append.symm

/-- A switch leaves the load on which later ones go by, with the window that it closes. -/
theorem stepRecord_ahead {p : Progress} {times ends : List Micros} (hcpu : job.views.cpu = true)
    (h : p.load.Ahead times ends) (hperiod : 1 ≤ p.load.period) {s : Switch}
    (htime : s.header.time ≤ Micros.limit) :
    (job.stepRecord p (.switch s)).progress.load.Ahead
      (times ++ if s.incoming.isOk then [s.header.time] else [])
      (ends ++ (job.closes? p (.switch s)).toList.map Window.ending) := by
  rw [stepRecord, stepSwitch_load, closes?, if_pos hcpu, if_pos hcpu, ← Option.toList_map]
  exact h.onLoad hperiod htime

theorem after_bounded (records : List Record) :
    (job.after records).load.Bounded (max job.cores 1) (max job.periodMicros 1) := by
  induction records using List.reverseRecOn with
  | nil => exact Load.new_bounded job.cores job.periodMicros
  | append_singleton before record ih =>
    rw [after_append]
    exact stepRecord_bounded ih record

/-- After records the window that is open ends after all switches that were read through, and no
earlier than a period after the window before. -/
theorem ahead_after (hcpu : job.views.cpu = true) (records : List Record)
    (htimes : ∀ s ∈ Record.switches records, s.header.time ≤ Micros.limit) :
    (job.after records).load.Ahead (Record.switchTimes records)
      ((job.windows job.start records).map Window.ending) := by
  induction records using List.reverseRecOn with
  | nil => exact Load.ahead_new job.cores job.periodMicros
  | append_singleton before record ih =>
    rw [after_append, windows_append, List.map_append]
    cases record with
    | user u =>
      rw [Record.switches_append_user] at htimes
      rw [Record.switchTimes_append_user, stepRecord, stepUser_load]
      simpa [closes?] using ih htimes
    | switch s =>
      rw [Record.switches_append_switch] at htimes
      have hbefore := ih fun s' hs => htimes s' (List.mem_append_left _ hs)
      have hperiod : 1 ≤ (job.after before).load.period := by
        rw [(job.after_bounded before).period_eq]
        exact Nat.le_max_right _ _
      rw [Record.switchTimes_append_switch]
      exact job.stepRecord_ahead hcpu hbefore hperiod (htimes s (by simp))

theorem mem_windows {records : List Record} {w : Window}
    (h : w ∈ job.windows job.start records) :
    ∃ before record, before ++ [record] <+: records ∧
      job.closes? (job.after before) record = some w := by
  induction records using List.reverseRecOn with
  | nil => simp [windows] at h
  | append_singleton before record ih =>
    rw [windows_append] at h
    rcases List.mem_append.mp h with hold | hnew
    · obtain ⟨earlier, found, hp, hw⟩ := ih hold
      exact ⟨earlier, found, hp.trans (List.prefix_append _ _), hw⟩
    · exact ⟨before, record, List.prefix_refl _, Option.mem_toList.mp hnew⟩

/-- A switch that can be read through closes the window whose end it reaches. -/
theorem closes?_iff (hcpu : job.views.cpu = true) (p : Progress) (s : Switch) (ending : Micros) :
    (job.closes? p (.switch s)).map Window.ending = some ending ↔
      s.incoming.isOk = true ∧ p.load.endAt s.header.time = ending ∧ ending ≤ s.header.time := by
  rw [closes?, if_pos hcpu]
  by_cases hread : s.incoming.isOk = true
  · rw [Switch.onLoad_of_ok hread, Load.take_closes_iff]
    exact (and_iff_right hread).symm
  · rw [Switch.onLoad_of_not_ok hread]
    simp [hread]

/-- What closes a window is a switch that can be read through, at the end of the window or later. -/
theorem exists_switch_of_closes? {p : Progress} {record : Record} {w : Window}
    (h : job.closes? p record = some w) :
    ∃ s, record = .switch s ∧ job.views.cpu = true ∧ s.incoming.isOk = true ∧
      p.load.endAt s.header.time = w.ending ∧ w.ending ≤ s.header.time := by
  cases record with
  | user u => simp [closes?] at h
  | switch s =>
    have hcpu : job.views.cpu = true := by
      by_contra hoff
      simp [closes?, hoff] at h
    have hending : (job.closes? p (.switch s)).map Window.ending = some w.ending := by
      rw [h, Option.map_some]
    exact ⟨s, rfl, hcpu, (job.closes?_iff hcpu p s w.ending).mp hending⟩

theorem ending_le_of_closes? {p : Progress} {record : Record} {w : Window}
    (h : job.closes? p record = some w) : w.ending ≤ record.header.time := by
  obtain ⟨s, rfl, -, -, -, hle⟩ := job.exists_switch_of_closes? h
  exact hle

theorem ending_le_of_mem_windows {records : List Record} {w : Window}
    (h : w ∈ job.windows job.start records) : ∃ s ∈ Record.switches records,
      job.views.cpu = true ∧ w.ending ≤ s.header.time := by
  obtain ⟨before, record, hinit, hw⟩ := job.mem_windows h
  obtain ⟨s, rfl, hcpu, -, -, hle⟩ := job.exists_switch_of_closes? hw
  exact ⟨s, Record.mem_switches_of_initial hinit (by simp [Record.mem_switches]), hcpu, hle⟩

theorem windows_of_no_cores (hcpu : job.views.cpu = false) (records : List Record) :
    job.windows job.start records = [] := by
  refine List.eq_nil_iff_forall_not_mem.mpr fun w hw => ?_
  obtain ⟨s, -, hon, -⟩ := job.ending_le_of_mem_windows hw
  rw [hcpu] at hon
  exact Bool.false_ne_true hon

theorem time_of_mem_counters {p : Progress} {records : List Record} {d : Drawn}
    (hd : d ∈ job.draws p records) (hcounter : d.origin.isCounter = true) :
    ∃ w ∈ job.windows p records, d.event.time = some w.ending := by
  have hmem : d ∈ Drawn.counters (job.draws p records) := List.mem_filter.mpr ⟨hd, hcounter⟩
  rw [counters_draws] at hmem
  obtain ⟨w, hw, he⟩ := List.mem_flatMap.mp (Drawn.mem_of.mp hmem).2
  exact ⟨w, hw, (mem_counters he).2⟩

theorem time_of_mem_reference {p : Progress} {d : Drawn} (hd : d ∈ job.closing p)
    (ho : d.origin = .reference) : d.event.time = some p.load.ending := by
  rw [mem_closing] at hd
  simp only [ho, reduceCtorEq, false_and, and_false, true_and, false_or, or_false] at hd
  exact (mem_counters hd.2).2

end

/-- A window ends so early that time does not stop within a period after it. -/
theorem after_ending_eq {job : Job} {records : List Record}
    (hfits : ∀ s ∈ Record.switches records, s.header.time + max job.periodMicros 1 ≤ Micros.limit)
    {w : Window} (hw : w ∈ job.windows job.start records) :
    Micros.after w.ending (job.after records).load.period =
      w.ending + max job.periodMicros 1 := by
  obtain ⟨s, hs, -, hle⟩ := job.ending_le_of_mem_windows hw
  rw [(job.after_bounded records).period_eq]
  exact Micros.after_eq ((Nat.add_le_add_right hle _).trans (hfits s hs))

section

variable {job : Job} {records : List Record} (hcpu : job.views.cpu = true)
  (hfits : ∀ s ∈ Record.switches records, s.header.time + max job.periodMicros 1 ≤ Micros.limit)
include hcpu hfits

theorem ahead_after_of_fits :
    (job.after records).load.Ahead (Record.switchTimes records)
      ((job.windows job.start records).map Window.ending) :=
  job.ahead_after hcpu records fun s hs => (Nat.le_add_right _ _).trans (hfits s hs)

theorem time_lt_windowEnd {s : Switch} (hs : s ∈ Record.switches records)
    (hread : s.incoming.isOk = true) :
    ∃ ending, (job.after records).load.windowEnd = some ending ∧ s.header.time < ending := by
  have hseen : s.header.time ∈ Record.switchTimes records :=
    Record.mem_switchTimes.mpr ⟨s, hs, hread, rfl⟩
  obtain ⟨ending, hend, hle⟩ := (ahead_after_of_fits hcpu hfits).seen _ hseen
  have hnext : s.header.time + 1 ≤ Micros.limit :=
    (Nat.add_le_add_left (Nat.le_max_right _ _) _).trans (hfits s hs)
  rw [Micros.after_eq hnext] at hle
  exact ⟨ending, hend, hle⟩

theorem ending_add_period_le {w : Window} (hw : w ∈ job.windows job.start records) :
    ∃ ending, (job.after records).load.windowEnd = some ending ∧
      w.ending + max job.periodMicros 1 ≤ ending := by
  obtain ⟨ending, hend, hle⟩ :=
    (ahead_after_of_fits hcpu hfits).closed w.ending (List.mem_map_of_mem hw)
  rw [after_ending_eq hfits hw] at hle
  exact ⟨ending, hend, hle⟩

theorem windows_apart :
    (job.windows job.start records).Pairwise fun earlier later =>
      earlier.ending + max job.periodMicros 1 ≤ later.ending := by
  have hapart := List.pairwise_map.mp (ahead_after_of_fits hcpu hfits).apart
  refine hapart.imp_of_mem fun {earlier later} hearlier _ hle => ?_
  rwa [after_ending_eq hfits hearlier] at hle

end

/-- A window that opens with the very switch is not closed by it, as it ends a period later. -/
theorem closes?_iff_of_fits {job : Job} (hcpu : job.views.cpu = true) {before : List Record}
    {s : Switch} (hfits : s.header.time + max job.periodMicros 1 ≤ Micros.limit)
    (ending : Micros) :
    (job.closes? (job.after before) (.switch s)).map Window.ending = some ending ↔
      s.incoming.isOk = true ∧ (job.after before).load.windowEnd = some ending ∧
        ending ≤ s.header.time := by
  rw [job.closes?_iff hcpu, Load.endAt]
  refine and_congr_right fun _ => and_congr_left fun hle => ?_
  cases hw : (job.after before).load.windowEnd with
  | some other => simp
  | none =>
    have hperiod : (job.after before).load.period = max job.periodMicros 1 :=
      (job.after_bounded before).period_eq
    have hlate : s.header.time < s.header.time + max job.periodMicros 1 :=
      Nat.lt_add_of_pos_right (Nat.lt_of_lt_of_le Nat.one_pos (Nat.le_max_right _ _))
    rw [Option.getD_none, hperiod, Micros.after_eq hfits]
    refine iff_of_false (fun he => ?_) (Option.some_ne_none ending).symm
    exact absurd (he ▸ hle) (Nat.not_le.mpr hlate)

/-- Windows move forward, whatever the order of the times. The window that is open ends after all
switches that were read through. A switch closes it when it reaches its end and draws the counters
of no other. Ends of windows come at least a period after one another, and the counters that fix
the scale at least a period after those of any window. -/
theorem windows_move_forward {job : Job} {records : List Record} (hcpu : job.views.cpu = true)
    (hfits : ∀ s ∈ Record.switches records,
      s.header.time + max job.periodMicros 1 ≤ Micros.limit) :
    let period := max job.periodMicros 1
    (∀ before, before <+: records → ∀ s ∈ Record.switches before, s.incoming.isOk = true →
      ∃ ending, (job.after before).load.windowEnd = some ending ∧ s.header.time < ending) ∧
    (∀ before s, before ++ [.switch s] <+: records →
      let p := job.after before
      let closed := job.closes? p (.switch s)
      Drawn.counters (job.stepSwitch p s).drawn =
        Drawn.of .usage (closed.toList.flatMap Window.events) ∧
      ∀ ending, closed.map Window.ending = some ending ↔
        s.incoming.isOk = true ∧ p.load.windowEnd = some ending ∧ ending ≤ s.header.time) ∧
    (job.windows job.start records).Pairwise
      (fun earlier later => earlier.ending + period ≤ later.ending) ∧
    ∀ d ∈ job.draws job.start records, d.origin = .usage →
      ∀ r ∈ job.closing (job.after records), r.origin = .reference →
        ∃ t u, d.event.time = some t ∧ r.event.time = some u ∧ t + period ≤ u := by
  intro period
  refine ⟨fun before hinit s hs hread => ?_, fun before s hinit => ⟨?_, fun ending => ?_⟩,
    windows_apart hcpu hfits, fun d hd ho r hr hreference => ?_⟩
  · have hbefore : ∀ s ∈ Record.switches before,
        s.header.time + max job.periodMicros 1 ≤ Micros.limit := by
      intro s hs
      exact hfits s (Record.mem_switches_of_initial hinit hs)
    exact time_lt_windowEnd hcpu hbefore hs hread
  · exact job.counters_stepRecord (job.after before) (.switch s)
  · have hs : s ∈ Record.switches records :=
      Record.mem_switches_of_initial hinit (by simp [Record.mem_switches])
    exact closes?_iff_of_fits hcpu (hfits s hs) ending
  · obtain ⟨w, hw, htime⟩ := job.time_of_mem_counters hd (by rw [ho]; rfl)
    obtain ⟨ending, hend, hle⟩ := ending_add_period_le hcpu hfits hw
    have hlast : (job.after records).load.ending = ending := by rw [Load.ending, hend]; rfl
    refine ⟨w.ending, ending, htime, ?_, hle⟩
    rw [job.time_of_mem_reference hr hreference, hlast]

/-- Switches of a core that go back in time once. -/
def wandering : List Record :=
  [.switch (switchAt 500 0 "swapper/0" 0 "a" "10"), .switch (switchAt 1600 0 "a" 10 "b" "11"),
    .switch (switchAt 200 0 "b" 11 "a" "10"), .switch (switchAt 2700 0 "a" 10 "swapper/0" "")]

theorem windows_move_forward_wandering :
    let windows := twoCores.windows twoCores.start wandering
    twoCores.views.cpu = true ∧
    (∀ s ∈ Record.switches wandering,
      s.header.time + max twoCores.periodMicros 1 ≤ Micros.limit) ∧
    windows.map Window.ending = [1500, 2600] ∧
    windows.Pairwise (fun earlier later => earlier.ending + 1000 ≤ later.ending) ∧
    (∃ ending, (twoCores.after wandering).load.windowEnd = some ending ∧ 2700 < ending) ∧
    ∃ d ∈ twoCores.draws twoCores.start wandering, d.origin = .usage ∧
      ∃ r ∈ twoCores.closing (twoCores.after wandering), r.origin = .reference ∧
        d.event.time = some 2600 ∧ ∃ u, r.event.time = some u ∧ 2600 + 1000 ≤ u := by
  intro windows
  have hfits : ∀ s ∈ Record.switches wandering,
      s.header.time + max twoCores.periodMicros 1 ≤ Micros.limit := by decide
  have hends : windows.map Window.ending = [1500, 2600] := by decide
  have hsample : ∃ d ∈ twoCores.draws twoCores.start wandering,
      d.origin = .usage ∧ d.event.time = some 2600 := by decide
  have hscale : ∃ r ∈ twoCores.closing (twoCores.after wandering), r.origin = .reference := by
    decide
  obtain ⟨hseen, -, hapart, hlater⟩ := windows_move_forward rfl hfits
  have hlast := hseen wandering (List.prefix_refl _)
    (switchAt 2700 0 "a" 10 "swapper/0" "") (by decide) (by decide)
  obtain ⟨d, hd, husage, htime⟩ := hsample
  obtain ⟨r, hr, hreference⟩ := hscale
  obtain ⟨t, u, ht, hu, hle⟩ := hlater d hd husage r hr hreference
  obtain rfl : 2600 = t := Option.some.inj (htime.symm.trans ht)
  exact ⟨rfl, hfits, hends, hapart, hlast, d, hd, husage, r, hr, hreference, htime, u, hu, hle⟩

end Job
end TraceReport
