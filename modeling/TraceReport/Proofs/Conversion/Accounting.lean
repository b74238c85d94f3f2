import TraceReport.Proofs.Conversion.Concatenation
import TraceReport.Proofs.Conversion.Intervals
import TraceReport.Proofs.Conversion.Rejection
import TraceReport.Proofs.Conversion.Streaming
import TraceReport.Proofs.Conversion.Windows

namespace TraceReport

/-- Counts in which every line is one of the kinds of lines, and in which no more than the user
lines are left out, unknown or rerouted. -/
structure Tally.Balanced (t : Tally) : Prop where
  lines : t.lines = t.blank + t.auxiliary + t.switches + t.signals + t.blocks
  left_out : t.ignored + t.unknown ≤ t.signals + t.blocks
  rerouted : t.rerouted ≤ t.signals + t.blocks

namespace Tally

variable {t : Tally}

theorem zero_balanced : zero.Balanced := ⟨rfl, Nat.le_refl 0, Nat.le_refl 0⟩

/-- A line that is blank or auxiliary is counted as that. -/
theorem Balanced.countLine_passed (h : t.Balanced) {raw : Text}
    (hpassed : Line.isBlank (Line.body raw) = true ∨ Line.describesBinary (Line.body raw) = true) :
    (t.countLine raw).Balanced := by
  obtain ⟨hlines, hleft, hrerouted⟩ := h
  unfold countLine
  by_cases hblank : Line.isBlank (Line.body raw) = true
  · simp only [hblank, if_true]
    constructor <;> dsimp only <;> omega
  · have hbinary := hpassed.resolve_left hblank
    simp only [hblank, hbinary, if_true, Bool.false_eq_true, if_false]
    constructor <;> dsimp only <;> omega

theorem countLine_samples (t : Tally) (raw : Text) : (t.countLine raw).samples = t.samples := by
  unfold countLine
  dsimp only
  split_ifs <;> rfl

end Tally

namespace Job

section

variable (job : Job)

theorem stepSwitch_tally (p : Progress) (s : Switch) :
    (job.stepSwitch p s).progress.tally =
      { p.tally with
        switches := p.tally.switches + 1
        samples := p.tally.samples + (job.closes? p (.switch s)).toList.length } := by
  cases hcpu : job.views.cpu with
  | false =>
    rw [stepSwitch_off hcpu, closes?, hcpu]
    rfl
  | true =>
    cases hnext : s.incoming with
    | error fault =>
      rw [stepSwitch_error hcpu p hnext, closes?, if_pos hcpu, Switch.onLoad, hnext]
      rfl
    | ok next =>
      rw [stepSwitch_eq hcpu p hnext, closes?, if_pos hcpu, Switch.onLoad, hnext]

/-- A switch is a line more that does not only mention one. -/
theorem stepSwitch_balanced {p : Progress} (h : p.tally.Balanced) {raw : Text} (s : Switch)
    (hswitch : Line.reroutes raw = false) :
    (job.stepSwitch { p with tally := p.tally.countAttempt raw } s).progress.tally.Balanced := by
  obtain ⟨hlines, hleft, hrerouted⟩ := h
  rw [stepSwitch_tally, Tally.countAttempt, hswitch]
  constructor <;> dsimp only [Bool.toNat_false] <;> omega

/-- A user record is a line more, and at most one that is left out or unknown. -/
theorem stepUser_balanced {p : Progress} (h : p.tally.Balanced) (raw : Text) (u : UserRecord) :
    (job.stepUser { p with tally := p.tally.countAttempt raw } u).progress.tally.Balanced := by
  obtain ⟨hlines, hleft, hrerouted⟩ := h
  have hmention : (Line.reroutes raw).toNat ≤ 1 := Bool.toNat_le _
  unfold stepUser
  dsimp only
  cases u with
  | plain s =>
    simp only [Tally.countUser, Tally.countAttempt]
    split_ifs <;> constructor <;> dsimp only <;> omega
  | structured b =>
    simp only [Tally.countUser, Tally.countAttempt]
    split_ifs <;> constructor <;> dsimp only <;> omega

theorem step_balanced {p : Progress} (h : p.tally.Balanced) {raw : Text}
    (hpassed : (job.step p raw).fault = none) : (job.step p raw).progress.tally.Balanced := by
  rw [step_eq] at hpassed ⊢
  cases hrecord : Line.record job.clock raw with
  | error fault => simp [hrecord] at hpassed
  | ok found =>
    cases found with
    | none =>
      have hkind : Line.isBlank (Line.body raw) = true ∨
          Line.describesBinary (Line.body raw) = true := by
        simp only [Line.record] at hrecord
        split_ifs at hrecord with hskip
        · exact Bool.or_eq_true_iff.mp hskip
        · obtain ⟨record, -, hsome⟩ := map_eq_ok_iff.mp hrecord
          exact absurd hsome (Option.some_ne_none record)
      exact h.countLine_passed hkind
    | some record =>
      have hread : Line.record job.clock raw ≠ .ok none := by simp [hrecord]
      have hcounted := p.tally.countLine_eq hread
      dsimp only
      rw [hcounted]
      cases record with
      | switch s => exact job.stepSwitch_balanced h s (Line.not_reroutes_of_switch hrecord)
      | user u => exact job.stepUser_balanced h raw u

theorem run_balanced {log : List Text} (hpassed : (job.run log).fault = none) :
    (job.run log).progress.tally.Balanced := by
  induction log using List.reverseRecOn with
  | nil => exact Tally.zero_balanced
  | append_singleton before raw ih =>
    have hall := (job.run_fault_iff _).mp hpassed
    have hbefore : (job.run before).fault = none :=
      (job.run_fault_iff before).mpr fun line hm => hall line (List.mem_append_left _ hm)
    have hstep := (job.step_fault_iff (job.run before).progress raw).mpr (hall raw (by simp))
    rw [run_append_of_passed hbefore]
    exact job.step_balanced (ih hbefore) hstep

/-- A record is counted as a sample if it closes a window. -/
theorem stepRecord_samples (p : Progress) (record : Record) :
    (job.stepRecord p record).progress.tally.samples =
      p.tally.samples + (job.closes? p record).toList.length := by
  cases record with
  | switch s => rw [stepRecord, stepSwitch_tally]
  | user u =>
    unfold stepRecord stepUser closes?
    dsimp only
    cases u with
    | plain s => split_ifs <;> rfl
    | structured b => split_ifs <;> rfl

theorem closes?_congr {p q : Progress} (h : p.load = q.load) (record : Record) :
    job.closes? p record = job.closes? q record := by
  cases record with
  | switch s => rw [closes?, closes?, h]
  | user u => rfl

/-- Samples are the windows that the records of a log close. -/
theorem run_samples {log : List Text} (hpassed : (job.run log).fault = none) :
    (job.run log).progress.tally.samples =
      (job.windows job.start (Log.records job.clock log)).length := by
  induction log using List.reverseRecOn with
  | nil => rfl
  | append_singleton before raw ih =>
    have hall := (job.run_fault_iff _).mp hpassed
    have hbefore : (job.run before).fault = none :=
      (job.run_fault_iff before).mpr fun line hm => hall line (List.mem_append_left _ hm)
    have hload := (run_passed hbefore).1.load
    rw [run_append_of_passed hbefore, Log.records_append, step_eq]
    cases Line.record job.clock raw with
    | error fault => simp [Tally.countLine_samples, ih hbefore, Except.toOption]
    | ok found =>
      cases found with
      | none => simp [Tally.countLine_samples, ih hbefore, Except.toOption]
      | some record =>
        have hcloses := job.closes?_congr (p := { (job.run before).progress with
          tally := (job.run before).progress.tally.countLine raw }) hload record
        simp only [Except.toOption, Option.join_some, Option.toList_some]
        rw [stepRecord_samples, Tally.countLine_samples, ih hbefore, windows_append,
          List.length_append, hcloses]
        rfl

/-- A window that closes has a share for each core. -/
theorem bounded_of_closes? {records : List Record} {record : Record} {w : Window}
    (h : job.closes? (job.after records) record = some w) :
    w.Bounded (max job.cores 1) (max job.periodMicros 1) := by
  obtain ⟨s, rfl, hcpu, hread, -⟩ := job.exists_switch_of_closes? h
  rw [closes?, if_pos hcpu, Switch.onLoad_of_ok hread] at h
  exact ((job.after_bounded records).take s.turn).2 w h

theorem length_usage (records : List Record) :
    ((job.windows job.start records).flatMap Window.events).length =
      (job.windows job.start records).length * (max job.cores 1 + 1) := by
  have hevents : ∀ w ∈ job.windows job.start records,
      w.events.length = max job.cores 1 + 1 := by
    intro w hw
    obtain ⟨before, record, -, hclosed⟩ := job.mem_windows hw
    rw [Window.events, counters_length, Window.shares, List.length_map,
      (job.bounded_of_closes? hclosed).length_eq]
  rw [List.length_flatMap, List.map_congr_left hevents, List.map_const', List.sum_replicate_nat]

theorem counters_closing (p : Progress) :
    Drawn.counters (job.closing p) =
      if job.views.cpu then Drawn.of .reference p.load.referenceEvents else [] := by
  have hnames (view : View) (shown : Bool) (events : List Event) :
      Drawn.counters (if shown then Drawn.of (.naming view) events else []) = [] := by
    split_ifs
    · exact Drawn.counters_of _ _
    · rfl
  unfold closing
  rw [Drawn.counters_append, Drawn.counters_append, hnames, hnames, List.append_nil,
    List.nil_append]
  split_ifs
  · simp [Origin.isCounter]
  · rfl

theorem finished_eq {log : List Text} {finished : Finished}
    (hok : (job.convert log).result = .ok finished) :
    finished = job.finish (job.run log).progress (job.convert log).drawn.length := by
  rw [convert_result] at hok
  cases hf : job.firstFault log with
  | some fault => simp [hf] at hok
  | none =>
    rw [hf] at hok
    exact (Except.ok.inj hok).symm

/-- Each window has a counter for every core and one for their mean, and so has the scale. -/
theorem length_counters {log : List Text} {finished : Finished}
    (hok : (job.convert log).result = .ok finished) :
    (Drawn.counters (job.convert log).drawn).length =
      if job.views.cpu then (finished.tally.samples + 1) * (max job.cores 1 + 1) else 0 := by
  have hpassed := (convert_drawn hok).1
  have hsamples : finished.tally.samples =
      (job.windows job.start (Log.records job.clock log)).length := by
    rw [← job.run_samples hpassed, job.finished_eq hok]
    rfl
  rw [(convert_drawn hok).2, Drawn.counters_append, counters_draws, counters_closing,
    List.length_append, Drawn.of, List.length_map, length_usage, ← hsamples]
  cases hcpu : job.views.cpu with
  | false =>
    rw [hsamples, job.windows_of_no_cores hcpu]
    simp
  | true =>
    have hscale : ((job.after (Log.records job.clock log)).load.referenceEvents).length =
        max job.cores 1 + 1 := by
      rw [Load.referenceEvents, counters_length, List.length_replicate,
        (job.after_bounded _).cores_eq]
    rw [if_pos rfl, if_pos rfl, Drawn.of, List.length_map, hscale, Nat.add_mul, Nat.one_mul]

end

end Job

namespace Log

/-- How many lines there are in a log; the last one need not be closed. -/
def lineCount (input : Bytes) : Nat :=
  input.count 10 + if input = [] ∨ input.getLast? = some 10 then 0 else 1

theorem length_lines (input : Bytes) : (lines input).length = lineCount input := by
  induction input with
  | nil => rfl
  | cons b rest ih =>
    rw [lines_cons]
    cases rest with
    | nil =>
      by_cases hb : b = 10
      · simp [lineCount, lines, hb]
      · simp [lineCount, lines, hb]
    | cons c more =>
      have hlast : lineCount (b :: c :: more) =
          (if b = 10 then 1 else 0) + lineCount (c :: more) := by
        by_cases hb : b = 10
        · simp [lineCount, hb]
          omega
        · simp [lineCount, hb]
      rw [hlast, ← ih]
      by_cases hb : b = 10
      · simp [hb, Nat.add_comm]
      · cases hl : lines (c :: more) with
        | nil => exact absurd hl (lines_ne_nil (List.cons_ne_nil _ _))
        | cons line others => simp [hb]

end Log

namespace Json.Value

/-- Whether an element of a report is a counter. -/
def isCounter : Value → Bool
  | .object members =>
    match members.lookup "ph".toList with
    | some (.string phase) => phase == "C".toList
    | _ => false
  | _ => false

end Json.Value

theorem Event.isCounter_toJson (e : Event) :
    e.toJson.value.isCounter = decide (e.phase = .counter) := by
  obtain ⟨members, hvalue, -, hfield⟩ := e.toJson_value
  have hphase : members.lookup "ph".toList = some (.string [e.phase.letter]) := hfield "ph"
  rw [hvalue, Json.Value.isCounter, hphase]
  cases e.phase <;> rfl

/-- An output that takes a whole report and does not fail has what the conversion wrote. -/
theorem Outcome.write_ok {o : Outcome} {room : Option Nat} {bytes : Bytes} {finished : Finished}
    (h : o.write room = (bytes, .ok finished)) :
    o.result = .ok finished ∧ bytes = Report.bytesOf (Report.finished (Drawn.events o.drawn)) := by
  have hwritten : o.result = .ok finished ∧ bytes = Report.bytesOf o.pieces := by
    cases room with
    | none =>
      rw [write, Prod.mk.injEq] at h
      exact ⟨h.2, h.1.symm⟩
    | some room =>
      obtain ⟨hkept, hfits, hcut⟩ := o.write_bounded room
      rw [h] at hkept hfits hcut
      by_cases hroom : (Report.bytesOf o.pieces).length ≤ room
      · exact ⟨(hfits hroom).symm, hkept.trans (List.take_of_length_le hroom)⟩
      · obtain ⟨before, piece, after, -, -, -, hfault⟩ := hcut (Nat.lt_of_not_le hroom)
        simp at hfault
  refine ⟨hwritten.1, hwritten.2.trans ?_⟩
  rw [pieces, hwritten.1]

theorem exists_job_of_convert {settings : Settings} {options : Options} {room : Option Nat}
    {input bytes : Bytes} {finished : Finished}
    (h : convert settings options room input = (bytes, .ok finished)) :
    ∃ job, Job.plan settings options = .ok job ∧
      (job.convert (Log.texts input)).result = .ok finished ∧
      bytes = Report.bytesOf
        (Report.finished (Drawn.events (job.convert (Log.texts input)).drawn)) := by
  rw [convert] at h
  cases hplan : Job.plan settings options with
  | error fault => simp [hplan] at h
  | ok job =>
    rw [hplan] at h
    exact ⟨job, rfl, Outcome.write_ok h⟩

/-- The elements of a report that are counters. -/
theorem countP_isCounter {job : Job} {log : List Text} {finished : Finished}
    (hok : (job.convert log).result = .ok finished) :
    ((Drawn.events (job.convert log).drawn).map fun e => e.toJson.value).countP
        Json.Value.isCounter = (Drawn.counters (job.convert log).drawn).length := by
  rw [List.countP_map, Drawn.events, List.countP_map, Drawn.counters, ← List.countP_eq_length_filter]
  refine List.countP_congr fun d hd => ?_
  have hallows := (Job.convert_allows hok hd).counter
  simp only [Function.comp_apply, Event.isCounter_toJson, decide_eq_true_eq]
  exact hallows

/-- The counts at the end account for every line and every event. Each line is one of five kinds,
no more than the user lines are left out or unknown, and no more are rerouted. The report is a
document that has as many elements as are counted, and for every sample a counter for each core and
one for their mean, with as many more for the scale, if cores are drawn at all. -/
theorem counts_account {settings : Settings} {options : Options} {room : Option Nat}
    {input bytes : Bytes} {finished : Finished}
    (h : convert settings options room input = (bytes, .ok finished)) :
    let t := finished.tally
    (t.lines = t.blank + t.auxiliary + t.switches + t.signals + t.blocks ∧
      t.lines = Log.lineCount input) ∧
    t.ignored + t.unknown ≤ t.signals + t.blocks ∧
    t.rerouted ≤ t.signals + t.blocks ∧
    ∃ text items, Utf8.decode? bytes = some text ∧
      Json.Value.read? text = some (.object [("displayTimeUnit".toList, .string "ms".toList),
        ("traceEvents".toList, .array items)]) ∧
      items.length = t.events ∧
      items.countP Json.Value.isCounter =
        if (options.effectiveViews settings).cpu then
          (t.samples + 1) * (max 1 options.cores + 1)
        else 0 := by
  intro t
  obtain ⟨job, hplan, hok, hbytes⟩ := exists_job_of_convert h
  obtain ⟨-, -, hjob⟩ := Job.eq_of_plan hplan
  have hpassed := (Job.convert_drawn hok).1
  have htally : t = (job.finish (job.run (Log.texts input)).progress
      (job.convert (Log.texts input)).drawn.length).tally :=
    congrArg Finished.tally (job.finished_eq hok)
  have hbalanced : t.Balanced := by
    obtain ⟨hlines, hleft, hrerouted⟩ := job.run_balanced hpassed
    rw [htally]
    exact ⟨hlines, hleft, hrerouted⟩
  have hlines : t.lines = Log.lineCount input := by
    rw [htally, ← Log.length_lines]
    exact ((job.run_fault _).2 hpassed).trans (List.length_map _)
  have hevents : t.events = (job.convert (Log.texts input)).drawn.length := by
    rw [htally]
    rfl
  have hcounters := job.length_counters hok
  rw [← countP_isCounter hok] at hcounters
  refine ⟨⟨hbalanced.lines, hlines⟩, hbalanced.left_out, hbalanced.rerouted, _, _, ?_,
    Report.read?_finished (Drawn.events (job.convert (Log.texts input)).drawn), ?_, ?_⟩
  · rw [hbytes, Report.bytesOf_eq, Utf8.decode?_encode]
  · rw [List.length_map, Drawn.events, List.length_map, hevents]
  · rw [hcounters, hjob, Nat.max_comm]

/-- A message, two switches more than a period apart, and a blank line at the end that is not
closed. -/
theorem counts_account_switches :
    let input := Utf8.encode (Job.userLine "App" ++ Job.switchLine ++
      Job.taskLine "[10.020100000]" "0" "swapper/0" "0" "App" "101" ++ " ".toList)
    let report := convert Job.allViews Options.new none input
    ∃ finished, report = (report.1, .ok finished) ∧
      finished.tally = ⟨4, 1, 0, 2, 1, 0, 0, 0, 0, 18, 1⟩ ∧ Log.lineCount input = 4 ∧
      ∃ text items, Utf8.decode? report.1 = some text ∧
        Json.Value.read? text = some (.object [("displayTimeUnit".toList, .string "ms".toList),
          ("traceEvents".toList, .array items)]) ∧
        items.length = 18 ∧ items.countP Json.Value.isCounter = (1 + 1) * (1 + 1) := by
  intro input report
  have htally : report.2.map Finished.tally = .ok ⟨4, 1, 0, 2, 1, 0, 0, 0, 0, 18, 1⟩ := by
    decide +kernel
  obtain ⟨finished, hok, hcounts⟩ := map_eq_ok_iff.mp htally
  have hreport : report = (report.1, .ok finished) := by rw [← hok]
  obtain ⟨⟨-, hlines⟩, -, -, text, items, hdecode, hread, hlength, hcounters⟩ :=
    counts_account hreport
  rw [hcounts] at hlines hlength hcounters
  exact ⟨finished, hreport, hcounts, hlines.symm, text, items, hdecode, hread, hlength, hcounters⟩

end TraceReport
