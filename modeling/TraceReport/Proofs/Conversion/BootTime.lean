import Mathlib.Data.List.Forall2
import TraceReport.Proofs.Clock
import TraceReport.Proofs.Conversion.Concatenation
import TraceReport.Proofs.Conversion.Delay
import TraceReport.Proofs.Conversion.Windows

namespace TraceReport

namespace Line

/-- The seconds and the fraction that stamp a line, unless it is blank or auxiliary. -/
def stamp? (raw : Text) : Option (Nat × Text) :=
  let line := body raw
  if isBlank line || describesBinary line then none
  else (tokens line).head?.bind Clock.parts?

theorem stamp?_of_record {clock : Clock} {raw : Text} {record : Record}
    (h : Line.record clock raw = .ok (some record)) :
    stamp? raw = Clock.parts? record.header.stamp := by
  simp only [Line.record] at h
  split_ifs at h with hskip
  · simp at h
  · obtain ⟨found, hread, hfound⟩ := map_eq_ok_iff.mp h
    obtain rfl := Option.some.inj hfound
    rw [stamp?, if_neg hskip, Record.head?_of_read hread]
    rfl

/-- Clocks that both tell the time of a line's stamp read the same record of the line. -/
theorem record_timedBy {clock other : Clock} {raw : Text}
    (h : ∀ stamp, ∀ parts ∈ Clock.parts? stamp, stamp? raw = some parts →
      (clock.micros? stamp).isSome = true ∧ (other.micros? stamp).isSome = true) :
    Line.record other raw = (Line.record clock raw).map (Option.map (Record.timedBy other)) := by
  simp only [Line.record]
  split_ifs with hskip
  · rfl
  · have hboth : ∀ stamp ∈ (tokens (body raw)).head?,
        (other.micros? stamp).isSome = (clock.micros? stamp).isSome := by
      intro stamp hstamp
      have hraw : stamp? raw = Clock.parts? stamp := by
        rw [stamp?, if_neg hskip, hstamp]
        rfl
      cases hparts : Clock.parts? stamp with
      | none => simp [Clock.micros?, hparts]
      | some parts =>
        obtain ⟨hclock, hother⟩ := h stamp parts hparts (hraw.trans hparts)
        rw [hclock, hother]
    rw [Record.read_timedBy _ hboth]
    cases Record.read clock _ _ with
    | error fault => rfl
    | ok record => rfl

/-- A line that another clock tells later by so much, with room for a period after it. -/
structure Delayed (clock other : Clock) (span period : Nat) (raw : Text) : Prop where
  record_eq : Line.record other raw =
    (Line.record clock raw).map (Option.map (Record.delay span))
  fits : ∀ record, Line.record clock raw = .ok (some record) →
    record.header.time + span + period ≤ Micros.limit

section

variable {b c period : Nat} {raw : Text}

/-- Whether a stamp that fits comes before or after a boot, it has a time. -/
theorem record_timedBy_of_boot
    (hfits : ∀ parts ∈ stamp? raw, ∀ boot ∈ [b, c],
      (parts.1 - boot) * Clock.perSecond + Clock.fractionMicros parts.2 + period ≤ Micros.limit) :
    Line.record ⟨some c⟩ raw =
      (Line.record ⟨some b⟩ raw).map (Option.map (Record.timedBy ⟨some c⟩)) := by
  refine record_timedBy fun stamp parts hparts hraw => ?_
  have hb := hfits parts hraw b (by simp)
  have hc := hfits parts hraw c (by simp)
  exact ⟨Clock.isSome_micros?_of_boot hparts (by omega),
    Clock.isSome_micros?_of_boot hparts (by omega)⟩

/-- A record after both boots is later by the time between them when it counts from the earlier. -/
theorem timeOf_of_boot (hle : c ≤ b) {record : Record}
    (hread : Line.record ⟨some b⟩ raw = .ok (some record))
    (hafter : ∀ parts ∈ Clock.parts? record.header.stamp, b ≤ parts.1)
    (hfits : ∀ parts ∈ stamp? raw, ∀ boot ∈ [b, c],
      (parts.1 - boot) * Clock.perSecond + Clock.fractionMicros parts.2 + period ≤ Micros.limit) :
    Clock.timeOf ⟨some c⟩ record.header.stamp =
        record.header.time + (b - c) * Clock.perSecond ∧
      record.header.time + (b - c) * Clock.perSecond + period ≤ Micros.limit := by
  obtain ⟨dialect, tokens, hfound⟩ := Line.read_of_record hread
  have htime := Record.micros?_of_read hfound
  have hraw := stamp?_of_record hread
  cases hparts : Clock.parts? record.header.stamp with
  | none => simp [Clock.micros?, hparts] at htime
  | some parts =>
    obtain ⟨seconds, fraction⟩ := parts
    have hsince : b ≤ seconds := hafter _ hparts
    have hfitsAt (boot : Nat) (hboot : boot ∈ [b, c]) :
        (seconds - boot) * Clock.perSecond + Clock.fractionMicros fraction + period ≤
          Micros.limit := hfits _ (hraw.trans hparts) boot hboot
    have hlate := Clock.micros?_after_boot hparts hsince
      ((Nat.le_add_right _ period).trans (hfitsAt b (by simp)))
    have hearly := Clock.micros?_after_boot hparts (hle.trans hsince)
      ((Nat.le_add_right _ period).trans (hfitsAt c (by simp)))
    have hshift : (seconds - b) * Clock.perSecond + Clock.fractionMicros fraction +
        (b - c) * Clock.perSecond =
          (seconds - c) * Clock.perSecond + Clock.fractionMicros fraction := by
      rw [Nat.add_right_comm, ← Nat.add_mul, Nat.sub_add_sub_cancel hsince hle]
    rw [hlate] at htime
    rw [Clock.timeOf, hearly, ← Option.some.inj htime, hshift]
    exact ⟨rfl, hfitsAt c (by simp)⟩

theorem delayed_of_boot (hle : c ≤ b)
    (hafter : ∀ record, Line.record ⟨some b⟩ raw = .ok (some record) →
      ∀ parts ∈ Clock.parts? record.header.stamp, b ≤ parts.1)
    (hfits : ∀ parts ∈ stamp? raw, ∀ boot ∈ [b, c],
      (parts.1 - boot) * Clock.perSecond + Clock.fractionMicros parts.2 + period ≤ Micros.limit) :
    Delayed ⟨some b⟩ ⟨some c⟩ ((b - c) * Clock.perSecond) period raw := by
  have htimes (record : Record) (hread : Line.record ⟨some b⟩ raw = .ok (some record)) :=
    timeOf_of_boot hle hread (hafter record hread) hfits
  refine ⟨?_, fun record hread => (htimes record hread).2⟩
  rw [record_timedBy_of_boot hfits]
  cases hread : Line.record ⟨some b⟩ raw with
  | error fault => simp only [Except.map]
  | ok found =>
    cases found with
    | none => simp only [Except.map, Option.map_none]
    | some record =>
      simp only [Except.map, Option.map_some, Record.timedBy, Record.delay,
        (htimes record hread).1]

end

end Line

/-- A run that is another one so much later. -/
structure Run.Delayed (span : Nat) (run later : Run) : Prop where
  progress : run.progress.Delayed span later.progress
  drawn : later.drawn = run.drawn.map (Drawn.delay span)
  fault : later.fault = run.fault

namespace Job

section

variable {job : Job} {clock : Clock} {span cores period : Nat}

theorem step_delay {p later : Progress} (h : p.Delayed span later)
    (hb : p.load.Bounded cores period) {raw : Text}
    (hraw : Line.Delayed job.clock clock span period raw) :
    let delayed := ({ job with clock } : Job).step later raw
    (job.step p raw).progress.Delayed span delayed.progress ∧
      delayed.drawn = (job.step p raw).drawn.map (Drawn.delay span) ∧
      delayed.fault = (job.step p raw).fault ∧
      (job.step p raw).progress.load.Bounded cores period := by
  intro delayed
  have hcounted : Progress.Delayed span { p with tally := p.tally.countLine raw }
      { later with tally := later.tally.countLine raw } :=
    ⟨h.names, h.load, h.seen, by rw [h.tally]⟩
  simp only [delayed, step_eq, hraw.record_eq]
  cases hread : Line.record job.clock raw with
  | error fault => exact ⟨hcounted, rfl, rfl, hb⟩
  | ok found =>
    cases found with
    | none => exact ⟨hcounted, rfl, rfl, hb⟩
    | some record =>
      have hbounded : (job.stepRecord { p with tally := p.tally.countLine raw }
          record).progress.load.Bounded cores period :=
        stepRecord_bounded (p := { p with tally := p.tally.countLine raw }) hb record
      obtain ⟨hprogress, hdrawn, hfault⟩ := stepRecord_delay hcounted hb (hraw.fits record hread)
      exact ⟨hprogress, hdrawn, hfault, hbounded⟩

theorem feed_delay {run later : Run} (h : run.Delayed span later)
    (hb : run.progress.load.Bounded cores period) {raw : Text}
    (hraw : Line.Delayed job.clock clock span period raw) :
    (job.feed run raw).Delayed span (({ job with clock } : Job).feed later raw) ∧
      (job.feed run raw).progress.load.Bounded cores period := by
  unfold feed
  cases hf : run.fault with
  | some fault =>
    simp only [h.fault, hf]
    exact ⟨h, hb⟩
  | none =>
    obtain ⟨hprogress, hdrawn, hfault, hbounded⟩ := step_delay h.progress hb hraw
    simp only [h.fault, hf]
    refine ⟨⟨hprogress, ?_, ?_⟩, hbounded⟩
    · rw [hdrawn, h.drawn, List.map_append, List.map_reverse]
    · rw [hfault, hprogress.tally]

/-- Lines that are all told later by so much make a run that is so much later. -/
theorem run_delay {lines : List Text}
    (hlines : ∀ raw ∈ lines, Line.Delayed job.clock clock span (max job.periodMicros 1) raw) :
    (job.run lines).Delayed span (({ job with clock } : Job).run lines) := by
  have hfeeds : ∀ {run later : Run}, run.Delayed span later →
      run.progress.load.Bounded (max job.cores 1) (max job.periodMicros 1) →
      (lines.foldl job.feed run).Delayed span
        (lines.foldl ({ job with clock } : Job).feed later) := by
    induction lines with
    | nil => exact fun h _ => h
    | cons raw rest ih =>
      intro run later h hb
      obtain ⟨hnext, hbounded⟩ := feed_delay h hb (hlines raw List.mem_cons_self)
      exact ih (fun line hm => hlines line (List.mem_cons_of_mem _ hm)) hnext hbounded
  exact hfeeds ⟨⟨rfl, rfl, rfl, rfl⟩, rfl, rfl⟩ (Load.new_bounded _ _)

/-- Clocks that read the same of a line stop at it alike. -/
theorem lineFault_timedBy {raw : Text}
    (h : Line.record clock raw =
      (Line.record job.clock raw).map (Option.map (Record.timedBy clock))) :
    ({ job with clock } : Job).lineFault raw = job.lineFault raw := by
  simp only [lineFault, h]
  cases Line.record job.clock raw with
  | error fault => rfl
  | ok found =>
    cases found with
    | none => rfl
    | some record => cases record <;> rfl

theorem taken_timedBy {log : List Text}
    (h : ∀ raw ∈ job.taken log, Line.record clock raw =
      (Line.record job.clock raw).map (Option.map (Record.timedBy clock))) :
    ({ job with clock } : Job).taken log = job.taken log := by
  induction log with
  | nil => rfl
  | cons raw rest ih =>
    have hraw : raw ∈ job.taken (raw :: rest) := by
      rw [taken]
      split_ifs <;> exact List.mem_cons_self
    rw [taken, taken, lineFault_timedBy (h raw hraw)]
    split_ifs with hpass
    · have hrest : job.taken rest ⊆ job.taken (raw :: rest) := by
        rw [taken, if_pos hpass]
        exact List.subset_cons_self raw _
      rw [ih fun line hm => h line (hrest hm)]
    · rfl

theorem intake_timedBy {log : List Text}
    (h : ∀ raw ∈ job.taken log, Line.record clock raw =
      (Line.record job.clock raw).map (Option.map (Record.timedBy clock))) :
    ({ job with clock } : Job).intake log = (job.intake log).map (Record.timedBy clock) := by
  rw [intake, intake, taken_timedBy h, Log.records, Log.records, List.map_filterMap]
  apply List.filterMap_congr
  intro raw hraw
  rw [h raw hraw]
  cases Line.record job.clock raw <;> rfl

end

section

variable (job : Job)

theorem not_reference_of_mem_draws {records : List Record} {d : Drawn}
    (hd : d ∈ job.draws job.start records) : d.origin ≠ .reference := by
  intro ho
  simpa [ho] using origin_of_mem_draws hd

theorem after_windowEnd (hcpu : job.views.cpu = true) (records : List Record) :
    (job.after records).load.windowEnd = none ↔ Record.switches records = [] := by
  induction records using List.reverseRecOn with
  | nil => exact iff_of_true rfl rfl
  | append_singleton before record ih =>
    rw [after_append]
    cases record with
    | user u => rw [Record.switches_append_user, ← ih, stepRecord, stepUser_load]
    | switch s =>
      obtain ⟨ending, hopen⟩ := (job.after before).load.onLoad_windowEnd s
      rw [stepRecord, stepSwitch_load, if_pos hcpu, Record.switches_append_switch, hopen]
      exact iff_of_false (Option.some_ne_none ending) (by simp)

/-- Conversions of a log that is later by so much report alike, so much later. -/
theorem convert_delay {clock : Clock} {span : Nat} {log : List Text}
    (htaken : ({ job with clock } : Job).taken log = job.taken log)
    (hlines : ∀ raw ∈ job.taken log,
      Line.Delayed job.clock clock span (max job.periodMicros 1) raw) :
    let later := ({ job with clock } : Job).convert log
    later.drawn = (job.convert log).drawn.map
        (Drawn.delayWith (job.run log).progress.load span) ∧
      later.result.map Finished.tally = (job.convert log).result.map Finished.tally := by
  intro later
  have hrun := run_delay hlines
  rw [← htaken, run_taken, htaken, run_taken] at hrun
  have hdraws : (job.run log).drawn.reverse.map (Drawn.delay span) =
      (job.run log).drawn.reverse.map (Drawn.delayWith (job.run log).progress.load span) := by
    apply List.map_congr_left
    intro d hd
    rw [(job.run_intake log).2] at hd
    rw [Drawn.delayWith, if_neg fun h => job.not_reference_of_mem_draws hd h.1]
  simp only [later, convert, hrun.fault]
  cases hf : (job.run log).fault with
  | some fault =>
    simp only [hrun.drawn, ← List.map_reverse]
    exact ⟨hdraws, trivial⟩
  | none =>
    have hclosing : ({ job with clock } : Job).closing
        (({ job with clock } : Job).run log).progress =
          (job.closing (job.run log).progress).map
            (Drawn.delayWith (job.run log).progress.load span) := closing_delay hrun.progress
    simp only [hrun.drawn, ← List.map_reverse, hdraws, hclosing, List.map_append,
      List.length_append, List.length_map, List.length_reverse]
    refine ⟨trivial, ?_⟩
    simp only [Except.map, Finished.tally, finish, hrun.progress.tally]

end

/-- The same job with a known boot. -/
def booted (job : Job) (boot : Nat) : Job := { job with clock := ⟨some boot⟩ }

/-- The records that a run takes in come after all of these boots. -/
def StampedAfter (job : Job) (boots : List Nat) (log : List Text) : Prop :=
  ∀ record ∈ job.intake log, ∀ parts ∈ Clock.parts? record.header.stamp, ∀ boot ∈ boots,
    boot ≤ parts.1

/-- No line that a run takes in is so late after one of these boots that a period after it would
exceed 64 bits. -/
def TimesFit (job : Job) (boots : List Nat) (log : List Text) : Prop :=
  ∀ raw ∈ job.taken log, ∀ parts ∈ Line.stamp? raw, ∀ boot ∈ boots,
    (parts.1 - boot) * Clock.perSecond + Clock.fractionMicros parts.2 + job.periodMicros < 2 ^ 64

section

variable {job : Job} {b c : Nat} {log : List Text}

theorem TimesFit.le_limit (h : (job.booted b).TimesFit [b, c] log) :
    ∀ raw ∈ (job.booted b).taken log, ∀ parts ∈ Line.stamp? raw, ∀ boot ∈ [b, c],
      (parts.1 - boot) * Clock.perSecond + Clock.fractionMicros parts.2 + job.periodMicros ≤
        Micros.limit := by
  intro raw hraw parts hparts boot hboot
  have hlimit : Micros.limit + 1 = 2 ^ 64 := by decide
  have hbelow := h raw hraw parts hparts boot hboot
  rw [← hlimit] at hbelow
  exact Nat.le_of_lt_succ hbelow

theorem TimesFit.record_timedBy (h : (job.booted b).TimesFit [b, c] log) :
    ∀ raw ∈ (job.booted b).taken log, Line.record ⟨some c⟩ raw =
      (Line.record (job.booted b).clock raw).map (Option.map (Record.timedBy ⟨some c⟩)) := by
  intro raw hraw
  exact Line.record_timedBy_of_boot (h.le_limit raw hraw)

theorem TimesFit.taken_eq (h : (job.booted b).TimesFit [b, c] log) :
    (job.booted c).taken log = (job.booted b).taken log :=
  @taken_timedBy (job.booted b) ⟨some c⟩ log h.record_timedBy

theorem TimesFit.intake_eq (h : (job.booted b).TimesFit [b, c] log) :
    (job.booted c).intake log =
      ((job.booted b).intake log).map (Record.timedBy ⟨some c⟩) :=
  @intake_timedBy (job.booted b) ⟨some c⟩ log h.record_timedBy

theorem TimesFit.switches_eq_nil (h : (job.booted b).TimesFit [b, c] log) :
    Record.switches ((job.booted c).intake log) = [] ↔
      Record.switches ((job.booted b).intake log) = [] := by
  have hkind : ∀ record : Record,
      (record.timedBy ⟨some c⟩).switch? = none ↔ record.switch? = none := by
    intro record
    cases record <;> simp [Record.timedBy, Record.retime, Record.switch?]
  rw [h.intake_eq, Record.switches, Record.switches, List.filterMap_map,
    List.filterMap_eq_nil_iff, List.filterMap_eq_nil_iff]
  exact forall₂_congr fun record _ => hkind record

theorem TimesFit.swap (h : (job.booted b).TimesFit [b, c] log) :
    (job.booted c).TimesFit [c, b] log := by
  intro raw hraw parts hparts boot hboot
  rw [h.taken_eq] at hraw
  exact h raw hraw parts hparts boot (by simpa [or_comm] using hboot)

theorem StampedAfter.swap (h : (job.booted b).StampedAfter [b, c] log)
    (hfits : (job.booted b).TimesFit [b, c] log) :
    (job.booted c).StampedAfter [c, b] log := by
  intro record hrecord parts hparts boot hboot
  rw [hfits.intake_eq] at hrecord
  obtain ⟨old, hold, rfl⟩ := List.mem_map.mp hrecord
  have hstamp : (old.timedBy ⟨some c⟩).header.stamp = old.header.stamp := by
    cases old with
    | switch s => rfl
    | user u => cases u <;> rfl
  rw [hstamp] at hparts
  exact h old hold parts hparts boot (by simpa [or_comm] using hboot)

end

end Job

/-- The same event at another time, if it has one, which is later by `span`. -/
structure Event.Later (span : Int) (e later : Event) : Prop where
  same : later = { e with time := later.time }
  time : later.time.map Int.ofNat = e.time.map fun time => Int.ofNat time + span

theorem Event.Later.swap {span : Int} {e later : Event} (h : e.Later span later) :
    later.Later (-span) e := by
  obtain ⟨hsame, htime⟩ := h
  refine ⟨?_, ?_⟩
  · rw [hsame]
  · cases he : e.time with
    | none =>
      rw [he, Option.map_none, Option.map_eq_none_iff] at htime
      rw [htime]
      rfl
    | some t =>
      rw [he, Option.map_some, Option.map_eq_some_iff] at htime
      obtain ⟨u, hu, hshift⟩ := htime
      rw [hu, Option.map_some, Option.map_some, hshift, add_neg_cancel_right]

theorem Event.later_delay (span : Nat) (e : Event) : e.Later span (e.delay span) := by
  refine ⟨rfl, ?_⟩
  cases he : e.time with
  | none => simp [delay, he]
  | some t => simp [delay, he]

/-- What becomes of an event when all records are later by `span`: it is later too. The reference
counters are at zero as long as there is no switch. -/
def Drawn.Later (switches : List Switch) (span : Int) (d later : Drawn) : Prop :=
  later.origin = d.origin ∧
    if d.origin = .reference ∧ switches = [] then
      later.event = d.event ∧ d.event.time = some 0
    else d.event.Later span later.event

theorem Drawn.Later.swap {switches others : List Switch} {span : Int} {d later : Drawn}
    (h : d.Later switches span later) (hswitches : others = [] ↔ switches = []) :
    later.Later others (-span) d := by
  obtain ⟨horigin, hevent⟩ := h
  refine ⟨horigin.symm, ?_⟩
  simp only [horigin, hswitches]
  split_ifs at hevent ⊢
  · exact ⟨hevent.1.symm, hevent.1 ▸ hevent.2⟩
  · exact hevent.swap

namespace Job

section

variable (job : Job)

theorem reference_of_mem_convert {log : List Text} {d : Drawn}
    (hd : d ∈ (job.convert log).drawn) (ho : d.origin = .reference) :
    job.views.cpu = true ∧ d.event ∈ (job.run log).progress.load.referenceEvents := by
  rw [convert_intake] at hd
  rw [(job.run_intake log).1.load]
  rcases List.mem_append.mp hd with hdraws | hclosing
  · exact absurd ho (job.not_reference_of_mem_draws hdraws)
  · split_ifs at hclosing
    · rw [mem_closing] at hclosing
      simpa [ho] using hclosing
    · simp at hclosing

theorem delayWith_later {log : List Text} (span : Nat) {d : Drawn}
    (hd : d ∈ (job.convert log).drawn) :
    d.Later (Record.switches (job.intake log)) span
      (d.delayWith (job.run log).progress.load span) := by
  unfold Drawn.Later Drawn.delayWith
  by_cases ho : d.origin = .reference
  · obtain ⟨hcpu, he⟩ := job.reference_of_mem_convert hd ho
    have hopen := job.after_windowEnd hcpu (job.intake log)
    rw [← (job.run_intake log).1.load] at hopen
    simp only [ho, true_and, ← hopen]
    split_ifs with hidle
    · refine ⟨ho, rfl, ?_⟩
      rw [(mem_counters he).2, Load.ending, hidle]
      rfl
    · exact ⟨ho, d.event.later_delay span⟩
  · simp only [ho, false_and, if_false]
    exact ⟨rfl, d.event.later_delay span⟩

end

section

variable {job : Job} {b c : Nat} {log : List Text}

theorem convert_earlier (hle : c ≤ b) (hperiod : 1 ≤ job.periodMicros)
    (hafter : (job.booted b).StampedAfter [b, c] log)
    (hfits : (job.booted b).TimesFit [b, c] log) :
    ((job.booted c).convert log).result.map Finished.tally =
        ((job.booted b).convert log).result.map Finished.tally ∧
      List.Forall₂ (Drawn.Later (Record.switches ((job.booted b).intake log))
          ((b - c : Int) * Clock.perSecond))
        ((job.booted b).convert log).drawn ((job.booted c).convert log).drawn := by
  have hmax : max job.periodMicros 1 = job.periodMicros := Nat.max_eq_left hperiod
  have hlines : ∀ raw ∈ (job.booted b).taken log, Line.Delayed ⟨some b⟩ ⟨some c⟩
      ((b - c) * Clock.perSecond) (max (job.booted b).periodMicros 1) raw := by
    intro raw hraw
    refine Line.delayed_of_boot hle (fun record hread parts hparts => ?_) ?_
    · have hrecord : record ∈ (job.booted b).intake log := Log.mem_records.mpr ⟨raw, hraw, hread⟩
      exact hafter record hrecord parts hparts b (by simp)
    · rw [show (job.booted b).periodMicros = job.periodMicros from rfl, hmax]
      exact hfits.le_limit raw hraw
  have hdrawn : ((job.booted c).convert log).drawn = ((job.booted b).convert log).drawn.map
      (Drawn.delayWith ((job.booted b).run log).progress.load ((b - c) * Clock.perSecond)) :=
    ((job.booted b).convert_delay hfits.taken_eq hlines).1
  have htally := ((job.booted b).convert_delay hfits.taken_eq hlines).2
  have hspan : ((b - c : Int) * Clock.perSecond) = ((b - c) * Clock.perSecond : Nat) := by
    rw [Nat.cast_mul, Nat.cast_sub hle]
  refine ⟨htally, ?_⟩
  rw [hspan, hdrawn, List.forall₂_map_right_iff, List.forall₂_same]
  exact fun d hd => (job.booted b).delayWith_later _ hd

end

end Job

theorem Job.plan_booted (settings : Settings) (options : Options) (boot : Nat) :
    Job.plan settings { options with boot := some boot } =
      (Job.plan settings options).map fun job => job.booted boot := by
  unfold plan
  dsimp only [Options.effectiveViews]
  split
  · rfl
  · split <;> rfl

theorem Job.period_of_plan {settings : Settings} {options : Options} {job : Job}
    (h : Job.plan settings options = .ok job) : 1 ≤ job.periodMicros := by
  obtain ⟨-, hallowed, rfl⟩ := eq_of_plan h
  have hmillis : 1 ≤ options.periodMillis := by
    simp only [Options.periodAllowed, Bool.and_eq_true, decide_eq_true_eq] at hallowed
    exact hallowed.1
  exact Nat.le_trans hmillis (Nat.le_mul_of_pos_left _ (by decide))

/-- A known boot only shifts a report. With two boots that come before all records, and far enough
from the limit of time, a conversion ends alike and counts alike, and of the two reports one has
the events of the other, so much later as its boot is earlier. -/
theorem boot_shifts_report (settings : Settings) (options : Options) (b c : Nat) (input : Bytes) :
    let booted (boot : Nat) := { options with boot := some boot }
    let log := Log.texts input
    (∀ fault, Job.plan settings options = .error fault →
      ∀ boot, convert settings (booted boot) none input = ([], .error fault)) ∧
    ∀ job, Job.plan settings options = .ok job →
      let outcome (boot : Nat) := (job.booted boot).convert log
      (∀ boot, convert settings (booted boot) none input =
        (Report.bytesOf (outcome boot).pieces, (outcome boot).result)) ∧
      ((job.booted b).StampedAfter [b, c] log → (job.booted b).TimesFit [b, c] log →
        (outcome c).result.map Finished.tally = (outcome b).result.map Finished.tally ∧
        List.Forall₂ (Drawn.Later (Record.switches ((job.booted b).intake log))
            ((b - c : Int) * Clock.perSecond))
          (outcome b).drawn (outcome c).drawn) := by
  intro booted log
  constructor
  · intro fault hplan boot
    rw [convert, Job.plan_booted, hplan]
    rfl
  · intro job hplan outcome
    constructor
    · intro boot
      rw [convert, Job.plan_booted, hplan]
      rfl
    · intro hafter hfits
      have hperiod := Job.period_of_plan hplan
      rcases Nat.le_total c b with hle | hle
      · exact Job.convert_earlier hle hperiod hafter hfits
      · obtain ⟨htally, hshifted⟩ :=
          Job.convert_earlier hle hperiod (hafter.swap hfits) hfits.swap
        have hback : -((c - b : Int) * Clock.perSecond) = (b - c : Int) * Clock.perSecond := by
          ring
        refine ⟨htally.symm, hshifted.flip.imp fun d later h => ?_⟩
        exact hback ▸ Drawn.Later.swap h hfits.switches_eq_nil.symm

/-- A message and a switch, in the eighth second after one boot and in the fourth after another. -/
theorem boot_shifts_report_switch :
    let input := Utf8.encode (Job.userLine "App" ++ Job.switchLine)
    let log := Log.texts input
    let job (boot : Nat) := Job.allViewsJob.booted boot
    let times (boot : Nat) := (Drawn.events ((job boot).convert log).drawn).filterMap Event.time
    ((job 3).StampedAfter [3, 7] log ∧ (job 3).TimesFit [3, 7] log) ∧
    (times 3 = [7000100, 7000100, 7000200, 7010200, 7010200] ∧
      times 7 = [3000100, 3000100, 3000200, 3010200, 3010200]) ∧
    ((job 7).convert log).result.map Finished.tally =
      ((job 3).convert log).result.map Finished.tally ∧
    List.Forall₂ (Drawn.Later (Record.switches ((job 3).intake log)) (-4000000))
      ((job 3).convert log).drawn ((job 7).convert log).drawn := by
  intro input log job times
  have hlog : log = [Job.userLine "App", Job.switchLine] := by decide +kernel
  have hafter : (job 3).StampedAfter [3, 7] log := by
    rw [hlog]
    unfold Job.StampedAfter
    decide +kernel
  have hfits : (job 3).TimesFit [3, 7] log := by
    rw [hlog]
    unfold Job.TimesFit
    decide +kernel
  have htimes : times 3 = [7000100, 7000100, 7000200, 7010200, 7010200] ∧
      times 7 = [3000100, 3000100, 3000200, 3010200, 3010200] := by
    simp only [times, hlog]
    decide +kernel
  have hplan : Job.plan Job.allViews Options.new = .ok Job.allViewsJob := rfl
  have hspan : (((3 : Nat) : Int) - (7 : Nat)) * Clock.perSecond = -4000000 := by decide
  obtain ⟨-, hjob⟩ := boot_shifts_report Job.allViews Options.new 3 7 input
  obtain ⟨htally, hshifted⟩ := (hjob Job.allViewsJob hplan).2 hafter hfits
  rw [hspan] at hshifted
  exact ⟨⟨hafter, hfits⟩, htimes, htally, hshifted⟩

end TraceReport
