import TraceReport.Proofs.Conversion.Accounting
import TraceReport.Proofs.Load.SpareCores

namespace TraceReport

/-- What comes from a single record is what does not sum up more than one. -/
theorem Origin.Allows.single_eq {origin : Origin} {phase : Phase} (h : origin.Allows phase) :
    origin.single = !phase.sumsUp := by
  have hcounter := h.counter
  have hnaming := h.naming
  cases origin <;> cases phase <;>
    simp [isCounter, isNaming, single, Phase.sumsUp] at hcounter hnaming ⊢

/-- A switch of a core that is known does the same to a load with more cores. -/
theorem Switch.onLoad_widen {load : Load} {cores period : Nat} (hb : load.Bounded cores period)
    (extra : Nat) {s : Switch} (hcore : s.header.core < cores) :
    s.onLoad (load.widen extra) =
      ((s.onLoad load).1.widen extra, (s.onLoad load).2.map (Window.widen extra)) := by
  unfold onLoad
  cases s.incoming with
  | error fault =>
    dsimp only
    rw [hb.vacated_widen extra s.turn]
    rfl
  | ok next => exact hb.take_widen extra hcore

/-- The same options for a machine with so many cores. -/
def Options.onCores (options : Options) (n : Nat) : Options := { options with cores := n }

namespace Job

/-- The same job on a machine with so many cores. -/
def onCores (job : Job) (n : Nat) : Job := { job with cores := n }

theorem plan_onCores (settings : Settings) (options : Options) (n : Nat) :
    plan settings (options.onCores n) = (plan settings options).map fun job => job.onCores n := by
  unfold plan Options.onCores Options.effectiveViews
  dsimp only
  split_ifs <;> rfl

section

variable (job : Job)

/-- A record does the same to a load with more cores, and closes the same window. -/
theorem stepRecord_onCores (few many : Nat) {p q : Progress} {cores period : Nat}
    (hb : p.load.Bounded cores period) {extra : Nat} (hload : q.load = p.load.widen extra)
    {record : Record} (hcore : ∀ s, record = .switch s → s.header.core < cores) :
    ((job.onCores many).stepRecord q record).progress.load =
        ((job.onCores few).stepRecord p record).progress.load.widen extra ∧
      (job.onCores many).closes? q record =
        ((job.onCores few).closes? p record).map (Window.widen extra) := by
  cases record with
  | user u =>
    rw [stepRecord, stepRecord, stepUser_load, stepUser_load]
    exact ⟨hload, rfl⟩
  | switch s =>
    have hswitch := Switch.onLoad_widen hb extra (hcore s rfl)
    rw [stepRecord, stepRecord, stepSwitch_load, stepSwitch_load, closes?, closes?, hload, hswitch]
    have hviews (n : Nat) : (job.onCores n).views = job.views := rfl
    rw [hviews, hviews]
    split_ifs
    · exact ⟨rfl, rfl⟩
    · exact ⟨rfl, rfl⟩

end

section

variable (job : Job) {few many : Nat} {records : List Record} (hfew : 1 ≤ few) (hle : few ≤ many)
  (hcores : ∀ s ∈ Record.switches records, s.header.core < few)
include hfew hle hcores

/-- After the same records the loads differ in idle cores, and so do all windows so far. -/
theorem after_onCores :
    ((job.onCores many).after records).load =
        ((job.onCores few).after records).load.widen (many - few) ∧
      (job.onCores many).windows (job.onCores many).start records =
        ((job.onCores few).windows (job.onCores few).start records).map
          (Window.widen (many - few)) := by
  induction records using List.reverseRecOn with
  | nil => exact ⟨Load.new_widen hfew hle job.periodMicros, rfl⟩
  | append_singleton before record ih =>
    obtain ⟨hload, hwindows⟩ := ih fun s hs =>
      hcores s (Record.mem_switches_of_initial (List.prefix_append _ _) hs)
    have hbounded := (job.onCores few).after_bounded before
    have hcore : ∀ s, record = .switch s → s.header.core < max few 1 := by
      intro s hs
      have hknown := hcores s (Record.mem_switches.mpr (by simp [hs]))
      exact hknown.trans_le (Nat.le_max_left few 1)
    obtain ⟨hnext, hcloses⟩ := job.stepRecord_onCores few many hbounded hload hcore
    rw [after_append, after_append, windows_append, windows_append, hwindows, List.map_append]
    refine ⟨hnext, ?_⟩
    show _ ++ ((job.onCores many).closes? ((job.onCores many).after before) record).toList =
      _ ++ (((job.onCores few).closes? ((job.onCores few).after before) record).toList).map _
    rw [hcloses, Option.toList_map]

/-- Window by window, the other cores are idle. -/
theorem windows_onCores :
    List.Forall₂ (Window.Spares few many)
      ((job.onCores few).windows (job.onCores few).start records)
      ((job.onCores many).windows (job.onCores many).start records) := by
  rw [(job.after_onCores hfew hle hcores).2, List.forall₂_map_right_iff, List.forall₂_same]
  intro w hw
  obtain ⟨before, record, -, hcloses⟩ := (job.onCores few).mem_windows hw
  have hbounded := (job.onCores few).bounded_of_closes? hcloses
  have hknown : max (job.onCores few).cores 1 = few := Nat.max_eq_left hfew
  rw [hknown] at hbounded
  exact hbounded.spares hfew (Nat.lt_of_lt_of_le Nat.one_pos (Nat.le_max_right _ _)) hle

end

section

variable (job : Job) (n : Nat)

theorem lineSingles_onCores : (job.onCores n).lineSingles = job.lineSingles := by
  funext raw
  have hrecord : (job.onCores n).recordSingles = job.recordSingles := by
    funext record
    cases record <;> rfl
  rw [lineSingles, lineSingles, hrecord]
  rfl

theorem convert_onCores_isOk (few : Nat) (log : List Text) :
    ((job.onCores n).convert log).result.isOk = true ↔
      ((job.onCores few).convert log).result.isOk = true := by
  rw [convert_isOk_iff, convert_isOk_iff]
  exact Iff.rfl

/-- The events that are neither counters nor names are those of single records. -/
theorem events_of_singles {log : List Text} (hok : (job.convert log).result.isOk = true) :
    (Drawn.events (job.convert log).drawn).filter (fun e => !e.phase.sumsUp) =
      Drawn.events (log.flatMap job.lineSingles) := by
  obtain ⟨finished, hfinished⟩ := exists_ok_of_isOk hok
  have hsingle : ∀ d ∈ (job.convert log).drawn, (!d.event.phase.sumsUp) = d.origin.single := by
    intro d hd
    exact (convert_allows hfinished hd).single_eq.symm
  rw [← job.singles_convert hok, Drawn.singles, ← List.filter_congr hsingle, Drawn.events,
    Drawn.events, List.filter_map]
  rfl

/-- The counters of a conversion are those of its windows, and then those of the scale. -/
theorem counters_convert (hcpu : job.views.cpu = true) {log : List Text}
    (hok : (job.convert log).result.isOk = true) :
    let records := Log.records job.clock log
    Drawn.counters (job.convert log).drawn =
      Drawn.of .usage ((job.windows job.start records).flatMap Window.events) ++
        Drawn.of .reference (job.after records).load.referenceEvents := by
  intro records
  obtain ⟨finished, hfinished⟩ := exists_ok_of_isOk hok
  rw [(convert_drawn hfinished).2, Drawn.counters_append, counters_draws, counters_closing,
    if_pos hcpu]

end

end Job

/-- Cores that no switch of a log names change nothing but the mean. A log is accepted as well with
them, and closes the same windows: each has the shares it had, zero for the other cores, and a mean
of the same time over more cores. The counters in the two reports are those of their windows and of
their scale, and all that is neither a counter nor a name is the same, in the same order. -/
theorem spare_cores_idle {settings : Settings} {options : Options} {input : Bytes}
    {few many : Nat} (hcpu : (options.effectiveViews settings).cpu = true) (hfew : 1 ≤ few)
    (hle : few ≤ many)
    (hcores : ∀ s ∈ Record.switches (Log.records ⟨options.boot⟩ (Log.texts input)),
      s.header.core < few)
    (hok : (convert settings (options.onCores few) none input).2.isOk = true) :
    ∃ job : Job, (∀ n, Job.plan settings (options.onCores n) = .ok (job.onCores n)) ∧
      let records := Log.records job.clock (Log.texts input)
      let drawn (n : Nat) := ((job.onCores n).convert (Log.texts input)).drawn
      let windows (n : Nat) := (job.onCores n).windows (job.onCores n).start records
      (∀ n, (convert settings (options.onCores n) none input).2.isOk = true ∧
        (convert settings (options.onCores n) none input).1 =
          Report.bytesOf (Report.finished (Drawn.events (drawn n))) ∧
        Drawn.counters (drawn n) = Drawn.of .usage ((windows n).flatMap Window.events) ++
          Drawn.of .reference ((job.onCores n).after records).load.referenceEvents) ∧
      List.Forall₂ (Window.Spares few many) (windows few) (windows many) ∧
      (Drawn.events (drawn many)).filter (fun e => !e.phase.sumsUp) =
        (Drawn.events (drawn few)).filter fun e => !e.phase.sumsUp := by
  cases hplan : Job.plan settings options with
  | error fault =>
    rw [convert, Job.plan_onCores, hplan] at hok
    exact absurd hok Bool.false_ne_true
  | ok job =>
    have hplans (n : Nat) : Job.plan settings (options.onCores n) = .ok (job.onCores n) := by
      rw [Job.plan_onCores, hplan]
      rfl
    obtain ⟨-, -, hjob⟩ := Job.eq_of_plan hplan
    have hclock : job.clock = ⟨options.boot⟩ := by rw [hjob]
    have hviews : job.views.cpu = true := by rw [hjob]; exact hcpu
    rw [← hclock] at hcores
    rw [(convert_of_plan input (hplans few)).1] at hok
    have hoks (n : Nat) : ((job.onCores n).convert (Log.texts input)).result.isOk = true :=
      (job.convert_onCores_isOk n few _).mpr hok
    refine ⟨job, hplans, ?_, job.windows_onCores hfew hle hcores, ?_⟩
    · intro n
      obtain ⟨hresult, hreport⟩ := convert_of_plan input (hplans n)
      rw [hresult]
      exact ⟨hoks n, hreport (hoks n), (job.onCores n).counters_convert hviews (hoks n)⟩
    · rw [(job.onCores many).events_of_singles (hoks many),
        (job.onCores few).events_of_singles (hoks few), job.lineSingles_onCores,
        job.lineSingles_onCores]

/-- A task that runs on the only core for two periods, and the same with two cores more. -/
theorem spare_cores_idle_switches :
    let input := Utf8.encode (Job.userLine "App" ++
      Job.taskLine "[10.000200000]" "0" "swapper/0" "0" "App" "101" ++
      Job.taskLine "[10.020200000]" "0" "App" "101" "swapper/0" "0")
    let records := Log.records ⟨none⟩ (Log.texts input)
    let accepted (n : Nat) :=
      (convert Job.allViews (Options.new.onCores n) none input).2.isOk = true
    let windows (n : Nat) :=
      (Job.allViewsJob.onCores n).windows (Job.allViewsJob.onCores n).start records
    (Options.new.effectiveViews Job.allViews).cpu = true ∧
    (∀ s ∈ Record.switches records, s.header.core < 1) ∧
    (accepted 1 ∧ accepted 3) ∧
    (windows 1).map Window.busy = [[10000]] ∧
    (windows 3).map Window.busy = [[10000, 0, 0]] ∧
    (windows 3).map Window.shares = [[.ofNat 100, .ofNat 0, .ofNat 0]] ∧
    (windows 1).map Window.total = [.ofNat 100] ∧
    (windows 3).map Window.total = [(Binary64.ofNat 100).div (.ofNat 3)] ∧
    List.Forall₂ (Window.Spares 1 3) (windows 1) (windows 3) := by
  intro input records accepted windows
  have hcores : ∀ s ∈ Record.switches records, s.header.core < 1 := by decide +kernel
  have hok : accepted 1 := by decide +kernel
  have hone : windows 1 = [⟨10010200, 10000, [10000]⟩] := by decide +kernel
  have hthree : windows 3 = [⟨10010200, 10000, [10000, 0, 0]⟩] := by decide +kernel
  have hbusy : (windows 1).map Window.busy = [[10000]] ∧
      (windows 3).map Window.busy = [[10000, 0, 0]] := by
    rw [hone, hthree]
    exact ⟨rfl, rfl⟩
  have hshares : (windows 3).map Window.shares = [[.ofNat 100, .ofNat 0, .ofNat 0]] := by
    rw [hthree]
    decide +kernel
  have htotal : (windows 1).map Window.total = [.ofNat 100] ∧
      (windows 3).map Window.total = [(Binary64.ofNat 100).div (.ofNat 3)] := by
    rw [hone, hthree]
    decide +kernel
  obtain ⟨job, hplans, hboth, hwindows, -⟩ :=
    @spare_cores_idle Job.allViews Options.new input 1 3 rfl (by decide) (by decide) hcores hok
  have hjob (n : Nat) : Job.allViewsJob.onCores n = job.onCores n := Except.ok.inj (hplans n)
  have hclock : job.clock = ⟨none⟩ := congrArg Job.clock (hjob 1).symm
  simp only [hclock, ← hjob] at hwindows
  exact ⟨rfl, hcores, ⟨hok, (hboth 3).1⟩, hbusy.1, hbusy.2, hshares, htotal.1, htotal.2,
    hwindows⟩

end TraceReport
