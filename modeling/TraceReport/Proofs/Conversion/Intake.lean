import TraceReport.Proofs.Conversion.Reading

namespace TraceReport.Job

/-- Why a run stops at a line; a switch is only read through when cores are drawn. -/
def lineFault (job : Job) (raw : Text) : Option LineFault :=
  match Line.record job.clock raw with
  | .error fault => some fault
  | .ok (some (.switch s)) =>
    if job.views.cpu then
      match s.incoming with
      | .error fault => some fault
      | .ok _ => none
    else none
  | .ok _ => none

/-- The fault of the first line that stops a run. Lines are numbered from one. -/
def firstFault (job : Job) (log : List Text) : Option ConversionFault :=
  log.zipIdx.findSome? fun (raw, i) => (job.lineFault raw).map (.badLine (i + 1))

/-- The lines a run takes in, the one it stops at included. -/
def taken (job : Job) : List Text → List Text
  | [] => []
  | raw :: rest => if (job.lineFault raw).isNone then raw :: job.taken rest else [raw]

/-- The records a run takes in. -/
def intake (job : Job) (log : List Text) : List Record := Log.records job.clock (job.taken log)

section

variable (job : Job)

theorem stepRecord_lines (p : Progress) (record : Record) :
    (job.stepRecord p record).progress.tally.lines = p.tally.lines := by
  cases record with
  | switch s =>
    simp only [stepRecord, stepSwitch]
    split
    · rfl
    · cases s.incoming <;> rfl
  | user u =>
    have hcount : (p.tally.countUser u).lines = p.tally.lines := by cases u <;> rfl
    simp only [stepRecord, stepUser]
    split
    · exact hcount
    · split <;> exact hcount

theorem step_lines (p : Progress) (raw : Text) :
    (job.step p raw).progress.tally.lines = p.tally.lines + 1 := by
  rw [step_eq]
  cases Line.record job.clock raw with
  | error fault => exact p.tally.countLine_lines raw
  | ok found =>
    cases found with
    | none => exact p.tally.countLine_lines raw
    | some record => exact (job.stepRecord_lines _ record).trans (p.tally.countLine_lines raw)

theorem step_fault (p : Progress) (raw : Text) : (job.step p raw).fault = job.lineFault raw := by
  rw [step_eq, lineFault]
  cases Line.record job.clock raw with
  | error fault => rfl
  | ok found =>
    cases found with
    | none => rfl
    | some record =>
      cases record with
      | user u => exact job.stepUser_fault _ u
      | switch s =>
        simp only [stepRecord, stepSwitch]
        cases job.views.cpu with
        | false => rfl
        | true => cases s.incoming <;> rfl

theorem accepts_iff (raw : Text) : job.accepts raw = true ↔ job.lineFault raw = none := by
  rw [← step_fault_iff job job.start, step_fault]

theorem firstFault_append (log : List Text) (raw : Text) :
    job.firstFault (log ++ [raw]) =
      (job.firstFault log).or ((job.lineFault raw).map (.badLine (log.length + 1))) := by
  simp only [firstFault, List.zipIdx_append, List.findSome?_append, List.zipIdx_singleton,
    List.findSome?_singleton, Nat.zero_add]

/-- A run fails with the fault of the first line that stops it, and counts the lines till then. -/
theorem run_fault (log : List Text) :
    (job.run log).fault = job.firstFault log ∧
      ((job.run log).fault = none → (job.run log).progress.tally.lines = log.length) := by
  induction log using List.reverseRecOn with
  | nil => exact ⟨rfl, fun _ => rfl⟩
  | append_singleton before raw ih =>
    obtain ⟨hfault, hlines⟩ := ih
    rw [run_append, firstFault_append, ← hfault, feed]
    cases hf : (job.run before).fault with
    | some fault => exact ⟨hf, fun h => by simp [hf] at h⟩
    | none =>
      have hnumber : (job.step (job.run before).progress raw).progress.tally.lines =
          before.length + 1 := by
        rw [step_lines, hlines hf]
      simp only [step_fault, hnumber, List.length_append, List.length_singleton]
      exact ⟨rfl, fun _ => trivial⟩

theorem foldl_feed_of_fault {run : Run} {fault : ConversionFault} (h : run.fault = some fault)
    (log : List Text) : log.foldl job.feed run = run := by
  induction log with
  | nil => rfl
  | cons raw rest ih =>
    have hstay : job.feed run raw = run := by simp only [feed, h]
    rw [List.foldl_cons, hstay, ih]

/-- What comes after the line a run stops at has no part in it. -/
theorem foldl_feed_taken {run : Run} (h : run.fault = none) (log : List Text) :
    log.foldl job.feed run = (job.taken log).foldl job.feed run := by
  induction log generalizing run with
  | nil => rfl
  | cons raw rest ih =>
    have hfault : (job.feed run raw).fault =
        (job.lineFault raw).map (.badLine (job.step run.progress raw).progress.tally.lines) := by
      simp only [feed, h, step_fault]
    rw [taken, List.foldl_cons]
    cases hl : job.lineFault raw with
    | none =>
      rw [hl] at hfault
      exact ih hfault
    | some fault =>
      rw [hl] at hfault
      exact job.foldl_feed_of_fault hfault rest

theorem taken_prefix (log : List Text) : job.taken log <+: log := by
  induction log with
  | nil => exact List.prefix_refl []
  | cons raw rest ih =>
    rw [taken]
    split_ifs
    · exact (List.prefix_cons_inj raw).mpr ih
    · exact ⟨rest, rfl⟩

theorem run_taken (log : List Text) : job.run (job.taken log) = job.run log :=
  (job.foldl_feed_taken rfl log).symm

theorem lineFault_of_mem_taken (log : List Text) :
    ∀ raw ∈ (job.taken log).dropLast, job.lineFault raw = none := by
  induction log with
  | nil => simp [taken]
  | cons raw rest ih =>
    intro line hm
    rw [taken] at hm
    split_ifs at hm with hl
    · cases ht : job.taken rest with
      | nil => simp [ht] at hm
      | cons first more =>
        rw [ht, List.dropLast_cons_cons] at hm
        rcases List.mem_cons.mp hm with rfl | hrest
        · exact Option.isNone_iff_eq_none.mp hl
        · exact ih line (ht ▸ hrest)
    · simp at hm

/-- A run takes in the records up to the line it stops at, and draws what they draw. -/
theorem run_intake (log : List Text) :
    (job.run log).progress.Alike (job.after (job.intake log)) ∧
      (job.run log).drawn.reverse = job.draws job.start (job.intake log) := by
  have hpass := job.lineFault_of_mem_taken log
  rw [← run_taken, intake]
  generalize job.taken log = lines at hpass
  cases lines using List.reverseRecOn with
  | nil => exact ⟨⟨rfl, rfl, rfl, rfl⟩, rfl⟩
  | append_singleton before raw =>
    rw [List.dropLast_concat] at hpass
    have hbefore : (job.run before).fault = none :=
      (job.run_fault_iff before).mpr fun line hm => (job.accepts_iff line).mpr (hpass line hm)
    obtain ⟨halike, hdrawn⟩ := run_passed hbefore
    exact feed_records hbefore halike hdrawn raw

theorem convert_result (log : List Text) :
    (job.convert log).result =
      match job.firstFault log with
      | some fault => .error fault
      | none => .ok (job.finish (job.run log).progress (job.convert log).drawn.length) := by
  rw [← (job.run_fault log).1]
  cases hf : (job.run log).fault with
  | some fault => simp only [convert, hf]
  | none => simp only [convert, hf]

theorem convert_error_iff (log : List Text) (fault : ConversionFault) :
    (job.convert log).result = .error fault ↔ job.firstFault log = some fault := by
  rw [convert_result]
  cases job.firstFault log with
  | some other => simp
  | none => simp

/-- Only a line stops a conversion that has begun. -/
theorem eq_badLine_of_convert {log : List Text} {fault : ConversionFault}
    (h : (job.convert log).result = .error fault) :
    ∃ number cause, fault = .badLine number cause := by
  rw [convert_error_iff] at h
  obtain ⟨⟨raw, i⟩, -, hline⟩ := List.exists_of_findSome?_eq_some h
  obtain ⟨cause, -, hfault⟩ := Option.map_eq_some_iff.mp hline
  exact ⟨i + 1, cause, hfault.symm⟩

theorem convert_isOk_iff (log : List Text) :
    (job.convert log).result.isOk = true ↔ ∀ raw ∈ log, job.accepts raw = true := by
  rw [← run_fault_iff]
  cases hf : (job.run log).fault with
  | some fault => simp [convert, hf, Except.isOk, Except.toBool]
  | none => simp [convert, hf, Except.isOk, Except.toBool]

/-- Whether it succeeds or not, a conversion draws what the records draw that it takes in, and at
the end, if it comes to that, what is known only after the last one. -/
theorem convert_intake (log : List Text) :
    (job.convert log).drawn = job.draws job.start (job.intake log) ++
      if job.firstFault log = none then job.closing (job.after (job.intake log)) else [] := by
  obtain ⟨halike, hdrawn⟩ := job.run_intake log
  rw [← hdrawn, ← (job.run_fault log).1, ← job.closing_alike halike]
  cases hf : (job.run log).fault with
  | some fault => simp [convert, hf]
  | none => simp [convert, hf]

end

section

variable {job other : Job}

theorem lineFault_congr (hclock : job.clock = other.clock) (hcpu : job.views.cpu = other.views.cpu)
    (raw : Text) : job.lineFault raw = other.lineFault raw := by
  simp only [lineFault, hclock, hcpu]

/-- Jobs with one clock that both draw cores, or both do not, read a log alike. -/
theorem firstFault_congr (hclock : job.clock = other.clock)
    (hcpu : job.views.cpu = other.views.cpu) (log : List Text) :
    job.firstFault log = other.firstFault log := by
  simp only [firstFault, lineFault_congr hclock hcpu]

theorem intake_congr (hclock : job.clock = other.clock)
    (hcpu : job.views.cpu = other.views.cpu) (log : List Text) :
    job.intake log = other.intake log := by
  have htaken : job.taken log = other.taken log := by
    induction log with
    | nil => rfl
    | cons raw rest ih => rw [taken, taken, lineFault_congr hclock hcpu, ih]
  rw [intake, intake, htaken, hclock]

end
end TraceReport.Job
