import Mathlib.Data.List.Induction
import TraceReport.Conversion.Run
import TraceReport.Proofs.Outcome

namespace TraceReport

/-- The record of a line. Blank and auxiliary lines have none. -/
def Line.record (clock : Clock) (raw : Text) : Except LineFault (Option Record) :=
  let line := Line.body raw
  if Line.isBlank line || Line.describesBinary line then .ok none
  else (Record.read clock (Line.dialect line (Line.tokens line)) (Line.tokens line)).map some

/-- The records of a log, without what is none. -/
def Log.records (clock : Clock) (log : List Text) : List Record :=
  log.filterMap fun raw => (Line.record clock raw).toOption.join

theorem Line.read_of_record {clock : Clock} {raw : Text} {record : Record}
    (h : Line.record clock raw = .ok (some record)) :
    ∃ dialect tokens, Record.read clock dialect tokens = .ok record := by
  simp only [Line.record] at h
  split at h
  · simp at h
  · obtain ⟨found, hread, hfound⟩ := map_eq_ok_iff.mp h
    obtain rfl := Option.some.inj hfound
    exact ⟨_, _, hread⟩

theorem Log.mem_records {clock : Clock} {log : List Text} {record : Record} :
    record ∈ Log.records clock log ↔ ∃ raw ∈ log, Line.record clock raw = .ok (some record) := by
  rw [Log.records, List.mem_filterMap]
  refine exists_congr fun raw => and_congr_right fun _ => ?_
  cases Line.record clock raw with
  | error fault => simp [Except.toOption]
  | ok found => simp [Except.toOption]

theorem Log.records_append (clock : Clock) (log : List Text) (raw : Text) :
    Log.records clock (log ++ [raw]) =
      Log.records clock log ++ (Line.record clock raw).toOption.join.toList := by
  rw [Log.records, List.filterMap_append]
  congr 1

namespace Record

def switch? : Record → Option Switch
  | .switch s => some s
  | .user _ => none

def user? : Record → Option UserRecord
  | .switch _ => none
  | .user u => some u

def switches (records : List Record) : List Switch := records.filterMap switch?

def users (records : List Record) : List UserRecord := records.filterMap user?

theorem mem_switches {s : Switch} {records : List Record} :
    s ∈ switches records ↔ .switch s ∈ records := by
  rw [switches, List.mem_filterMap]
  constructor
  · intro h
    obtain ⟨record, hm, hs⟩ := h
    cases record with
    | switch s' => exact Option.some.inj hs ▸ hm
    | user u => simp [switch?] at hs
  · exact fun h => ⟨.switch s, h, rfl⟩

theorem mem_switches_of_initial {before records : List Record} (h : before <+: records)
    {s : Switch} (hs : s ∈ switches before) : s ∈ switches records :=
  mem_switches.mpr (h.subset (mem_switches.mp hs))

theorem mem_users {u : UserRecord} {records : List Record} :
    u ∈ users records ↔ .user u ∈ records := by
  rw [users, List.mem_filterMap]
  constructor
  · rintro ⟨record, hm, hu⟩
    cases record with
    | switch s => simp [user?] at hu
    | user u' => exact Option.some.inj hu ▸ hm
  · exact fun h => ⟨.user u, h, rfl⟩

end Record

/-- What is counted of a line before its record is taken in. -/
def Tally.countLine (tally : Tally) (raw : Text) : Tally :=
  let line := Line.body raw
  let tally := { tally with lines := tally.lines + 1 }
  if Line.isBlank line then { tally with blank := tally.blank + 1 }
  else if Line.describesBinary line then { tally with auxiliary := tally.auxiliary + 1 }
  else if Line.isRerouted line (Line.tokens line) then { tally with rerouted := tally.rerouted + 1 }
  else tally

theorem Tally.countLine_lines (tally : Tally) (raw : Text) :
    (tally.countLine raw).lines = tally.lines + 1 := by
  simp only [countLine]
  split
  · rfl
  · split
    · rfl
    · split <;> rfl

theorem Tally.countLine_ignored (tally : Tally) (raw : Text) :
    (tally.countLine raw).ignored = tally.ignored := by
  simp only [countLine]
  split
  · rfl
  · split
    · rfl
    · split <;> rfl

/-- States that differ in what they have counted only. -/
structure Progress.Alike (p q : Progress) : Prop where
  names : p.names = q.names
  load : p.load = q.load
  seen : p.seen = q.seen
  kept : p.kept = q.kept

namespace Job

/-- The state after records. -/
def after (job : Job) (records : List Record) : Progress :=
  records.foldl (fun p record => (job.stepRecord p record).progress) job.start

/-- What records draw, one after the other. -/
def draws (job : Job) (p : Progress) : List Record → List Drawn
  | [] => []
  | record :: rest =>
    (job.stepRecord p record).drawn ++ job.draws (job.stepRecord p record).progress rest

theorem after_append (job : Job) (records : List Record) (record : Record) :
    job.after (records ++ [record]) =
      (job.stepRecord (job.after records) record).progress := by
  rw [after, List.foldl_append]
  rfl

theorem draws_append (job : Job) (p : Progress) (records : List Record) (record : Record) :
    job.draws p (records ++ [record]) = job.draws p records ++
      (job.stepRecord (records.foldl (fun p r => (job.stepRecord p r).progress) p)
        record).drawn := by
  induction records generalizing p with
  | nil => simp [draws]
  | cons first rest ih =>
    rw [List.cons_append, draws, ih, draws, List.append_assoc]
    rfl

theorem mem_draws {job : Job} {d : Drawn} {records : List Record}
    (h : d ∈ job.draws job.start records) :
    ∃ before record, before ++ [record] <+: records ∧
      d ∈ (job.stepRecord (job.after before) record).drawn := by
  induction records using List.reverseRecOn with
  | nil => simp [draws] at h
  | append_singleton before record ih =>
    rw [draws_append] at h
    rcases List.mem_append.mp h with hold | hnew
    · obtain ⟨earlier, found, hp, hd⟩ := ih hold
      exact ⟨earlier, found, hp.trans (List.prefix_append _ _), hd⟩
    · exact ⟨before, record, List.prefix_refl _, hnew⟩

/-- What is counted has no say in what a record does. -/
theorem stepRecord_alike (job : Job) {p q : Progress} (h : p.Alike q) (record : Record) :
    (job.stepRecord p record).drawn = (job.stepRecord q record).drawn ∧
      (job.stepRecord p record).fault = (job.stepRecord q record).fault ∧
      (job.stepRecord p record).progress.Alike (job.stepRecord q record).progress := by
  obtain ⟨names, load, seen, kept, tally⟩ := p
  obtain ⟨names', load', seen', kept', tally'⟩ := q
  obtain ⟨rfl, rfl, rfl, rfl⟩ := h
  cases record with
  | switch s =>
    simp only [stepRecord, stepSwitch]
    split
    · exact ⟨rfl, rfl, rfl, rfl, rfl, rfl⟩
    · cases s.incoming with
      | error fault => exact ⟨rfl, rfl, rfl, rfl, rfl, rfl⟩
      | ok next => exact ⟨rfl, rfl, rfl, rfl, rfl, rfl⟩
  | user record =>
    simp only [stepRecord, stepUser]
    split
    · exact ⟨rfl, rfl, rfl, rfl, rfl, rfl⟩
    · exact ⟨rfl, rfl, rfl, rfl, rfl, rfl⟩

/-- A line is counted, and then its record is taken in if it has one. -/
theorem step_eq (job : Job) (p : Progress) (raw : Text) :
    job.step p raw =
      match Line.record job.clock raw with
      | .error fault => ⟨{ p with tally := p.tally.countLine raw }, [], some fault⟩
      | .ok none => ⟨{ p with tally := p.tally.countLine raw }, [], none⟩
      | .ok (some record) =>
        job.stepRecord { p with tally := p.tally.countLine raw } record := by
  simp only [step, Line.record, Tally.countLine]
  by_cases hblank : Line.isBlank (Line.body raw) = true
  · simp [hblank]
  · by_cases hbinary : Line.describesBinary (Line.body raw) = true
    · simp [hblank, hbinary]
    · simp only [hblank, hbinary, Bool.or_self]
      cases Record.read job.clock _ _ with
      | error fault => rfl
      | ok record => rfl

theorem stepUser_fault (job : Job) (p : Progress) (u : UserRecord) :
    (job.stepUser p u).fault = none := by
  unfold stepUser
  dsimp only
  split <;> rfl

/-- Whether a line passes; a switch is only read through when cores are drawn. -/
def accepts (job : Job) (raw : Text) : Bool :=
  match Line.record job.clock raw with
  | .error _ => false
  | .ok (some (.switch s)) => !job.views.cpu || s.incoming.isOk
  | .ok _ => true

theorem step_fault_iff (job : Job) (p : Progress) (raw : Text) :
    (job.step p raw).fault = none ↔ job.accepts raw = true := by
  rw [step_eq, accepts]
  cases Line.record job.clock raw with
  | error fault => simp
  | ok found =>
    cases found with
    | none => simp
    | some record =>
      cases record with
      | user u => exact iff_of_true (job.stepUser_fault _ u) rfl
      | switch s =>
        simp only [stepRecord, stepSwitch]
        cases hcpu : job.views.cpu with
        | false => simp
        | true => cases s.incoming <;> simp [Except.isOk, Except.toBool]

theorem run_append (job : Job) (log : List Text) (raw : Text) :
    job.run (log ++ [raw]) = job.feed (job.run log) raw := by
  rw [run, List.foldl_append]
  rfl

/-- A run that has not stopped takes the next line as its step does. -/
theorem run_append_of_passed {job : Job} {log : List Text} (h : (job.run log).fault = none)
    (raw : Text) :
    job.run (log ++ [raw]) =
      let s := job.step (job.run log).progress raw
      ⟨s.progress, s.drawn.reverse ++ (job.run log).drawn,
        s.fault.map (.badLine s.progress.tally.lines)⟩ := by
  rw [run_append, feed, h]

/-- A run stops at a line that does not pass, whatever came before. -/
theorem run_fault_iff (job : Job) (log : List Text) :
    (job.run log).fault = none ↔ ∀ raw ∈ log, job.accepts raw = true := by
  induction log using List.reverseRecOn with
  | nil => simp [run]
  | append_singleton before raw ih =>
    rw [run_append, feed]
    cases hf : (job.run before).fault with
    | some fault =>
      have hno : ¬∀ raw ∈ before, job.accepts raw = true := by
        rw [← ih, hf]
        simp
      simp only [hf, reduceCtorEq, false_iff]
      exact fun h => hno fun line hm => h line (List.mem_append_left _ hm)
    | none =>
      have hyes := ih.mp hf
      have hstep := job.step_fault_iff (job.run before).progress raw
      simp only [Option.map_eq_none_iff, hstep]
      constructor
      · intro h line hm
        rcases List.mem_append.mp hm with hold | hlast
        · exact hyes line hold
        · exact (List.mem_singleton.mp hlast) ▸ h
      · intro h
        exact h raw (by simp)

/-- A run that has not stopped takes in the record of the next line, if it has one. -/
theorem feed_records {job : Job} {log : List Text} (hpassed : (job.run log).fault = none)
    (halike : (job.run log).progress.Alike (job.after (Log.records job.clock log)))
    (hdrawn : (job.run log).drawn.reverse = job.draws job.start (Log.records job.clock log))
    (raw : Text) :
    (job.run (log ++ [raw])).progress.Alike
        (job.after (Log.records job.clock (log ++ [raw]))) ∧
      (job.run (log ++ [raw])).drawn.reverse =
        job.draws job.start (Log.records job.clock (log ++ [raw])) := by
  have hcounted : { (job.run log).progress with
      tally := (job.run log).progress.tally.countLine raw }.Alike
        (job.after (Log.records job.clock log)) :=
    ⟨halike.names, halike.load, halike.seen, halike.kept⟩
  rw [run_append_of_passed hpassed, Log.records_append, job.step_eq, List.reverse_append,
    List.reverse_reverse, hdrawn]
  cases hr : Line.record job.clock raw with
  | error fault =>
    simp only [Except.toOption, Option.join_none, Option.toList_none, List.append_nil]
    exact ⟨hcounted, trivial⟩
  | ok found =>
    cases found with
    | none =>
      simp only [Except.toOption, Option.join_some, Option.toList_none, List.append_nil]
      exact ⟨hcounted, trivial⟩
    | some record =>
      have hsame := job.stepRecord_alike hcounted record
      simp only [Except.toOption, Option.join_some, Option.toList_some]
      rw [after_append, draws_append]
      exact ⟨hsame.2.2, congrArg _ hsame.1⟩

/-- A run that does not stop takes in the records of its log, and draws what they draw. -/
theorem run_passed {job : Job} {log : List Text} (h : (job.run log).fault = none) :
    (job.run log).progress.Alike (job.after (Log.records job.clock log)) ∧
      (job.run log).drawn.reverse = job.draws job.start (Log.records job.clock log) := by
  induction log using List.reverseRecOn with
  | nil => exact ⟨⟨rfl, rfl, rfl, rfl⟩, rfl⟩
  | append_singleton before raw ih =>
    have hpass := (job.run_fault_iff _).mp h
    have hbefore : (job.run before).fault = none :=
      (job.run_fault_iff before).mpr fun line hm => hpass line (List.mem_append_left _ hm)
    obtain ⟨halike, hdrawn⟩ := ih hbefore
    exact feed_records hbefore halike hdrawn raw

/-- What holds of the counts before a log, and is kept by a line and by the record of a line, holds
of the counts and the records of a log whose run does not stop. -/
theorem tally_of_run {job : Job} (holds : Tally → List Record → Prop) (hstart : holds .zero [])
    (hline : ∀ {t records} raw, holds t records → holds (t.countLine raw) records)
    (hrecord : ∀ {p records} record, holds p.tally records →
      holds (job.stepRecord p record).progress.tally (records ++ [record]))
    {log : List Text} (hpassed : (job.run log).fault = none) :
    holds (job.run log).progress.tally (Log.records job.clock log) := by
  induction log using List.reverseRecOn with
  | nil => exact hstart
  | append_singleton before raw ih =>
    have hall := (job.run_fault_iff _).mp hpassed
    have hbefore : (job.run before).fault = none :=
      (job.run_fault_iff before).mpr fun line hm => hall line (List.mem_append_left _ hm)
    have hcounted := hline raw (ih hbefore)
    rw [run_append_of_passed hbefore, step_eq, Log.records_append]
    cases Line.record job.clock raw with
    | error fault => simpa [Except.toOption] using hcounted
    | ok found =>
      cases found with
      | none => simpa [Except.toOption] using hcounted
      | some record =>
        have hstep := hrecord (p := { (job.run before).progress with
          tally := (job.run before).progress.tally.countLine raw }) record hcounted
        simpa [Except.toOption] using hstep

theorem closing_alike (job : Job) {p q : Progress} (h : p.Alike q) :
    job.closing p = job.closing q := by
  obtain ⟨names, load, seen, kept, tally⟩ := p
  obtain ⟨names', load', seen', kept', tally'⟩ := q
  obtain ⟨rfl, rfl, rfl, rfl⟩ := h
  rfl

/-- A conversion that succeeds draws what the records of its log draw, and then what is known only
after the last one. -/
theorem convert_drawn {job : Job} {log : List Text} {finished : Finished}
    (h : (job.convert log).result = .ok finished) :
    (job.run log).fault = none ∧
      (job.convert log).drawn = job.draws job.start (Log.records job.clock log) ++
        job.closing (job.after (Log.records job.clock log)) := by
  cases hf : (job.run log).fault with
  | some fault => simp [convert, hf] at h
  | none =>
    obtain ⟨halike, hdrawn⟩ := run_passed hf
    refine ⟨rfl, ?_⟩
    simp only [convert, hf]
    rw [hdrawn, job.closing_alike halike]

/-- A conversion that succeeds has read all switches through if it draws cores. -/
theorem isOk_of_convert {job : Job} (hcpu : job.views.cpu = true) {log : List Text} {finished : Finished}
    (hok : (job.convert log).result = .ok finished) :
    ∀ s ∈ Record.switches (Log.records job.clock log), s.incoming.isOk = true := by
  intro s hs
  obtain ⟨raw, hraw, hrecord⟩ := Log.mem_records.mp (Record.mem_switches.mp hs)
  have haccepts := (job.run_fault_iff log).mp (convert_drawn hok).1 raw hraw
  simpa [accepts, hrecord, hcpu] using haccepts

end Job
end TraceReport
