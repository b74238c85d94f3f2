import TraceReport.Proofs.Conversion.Acceptance
import TraceReport.Proofs.Conversion.Views

namespace TraceReport

namespace Line

/-- Whether a line is counted as one that only mentions a switch. -/
def reroutes (raw : Text) : Bool := isRerouted (body raw) (tokens (body raw))

theorem record_of_passed (clock : Clock) {raw : Text}
    (h : (isBlank (body raw) || describesBinary (body raw)) = true) :
    record clock raw = .ok none := by
  simp only [record, h, if_true]

theorem userDialect_ne_kernel (line : Text) : userDialect line ≠ .kernel := by
  unfold userDialect
  split <;> exact Dialect.noConfusion

/-- A line that is read as a switch does more than mention one. -/
theorem not_reroutes_of_switch {clock : Clock} {raw : Text} {s : Switch}
    (h : record clock raw = .ok (some (.switch s))) : reroutes raw = false := by
  simp only [record] at h
  split at h
  · simp at h
  · obtain ⟨found, hread, hfound⟩ := map_eq_ok_iff.mp h
    obtain rfl := Option.some.inj hfound
    have hkernel : dialect (body raw) (tokens (body raw)) = .kernel :=
      (Record.dialect_of_read hread).symm
    unfold dialect at hkernel
    split at hkernel
    case isTrue hswitch =>
      obtain ⟨-, hnames⟩ := Bool.and_eq_true_iff.mp hswitch
      rw [reroutes, isRerouted, hnames, Bool.not_true, Bool.and_false]
    case isFalse => exact absurd hkernel (userDialect_ne_kernel _)

end Line

/-- What is counted of a line that is neither blank nor auxiliary. -/
def Tally.countAttempt (tally : Tally) (raw : Text) : Tally :=
  { tally with
    lines := tally.lines + 1
    rerouted := tally.rerouted + (Line.reroutes raw).toNat }

theorem Tally.countLine_of_shown (tally : Tally) {raw : Text}
    (hshown : Line.isBlank (Line.body raw) = false)
    (hother : Line.describesBinary (Line.body raw) = false) :
    tally.countLine raw = tally.countAttempt raw := by
  simp only [countLine, countAttempt, Line.reroutes, hshown, hother, Bool.false_eq_true, if_false]
  cases Line.isRerouted (Line.body raw) (Line.tokens (Line.body raw)) with
  | true => rfl
  | false => rfl

theorem Tally.countLine_eq (tally : Tally) {clock : Clock} {raw : Text}
    (h : Line.record clock raw ≠ .ok none) : tally.countLine raw = tally.countAttempt raw := by
  have hread := mt (Line.record_of_passed clock) h
  simp only [Bool.or_eq_true, not_or, Bool.not_eq_true] at hread
  exact tally.countLine_of_shown hread.1 hread.2

namespace Job

section

variable {job : Job} {p : Progress} {fault : LineFault}

/-- A switch is only rejected for the task that enters. What was sighted and kept stays as it is,
and of all counts only that of switches goes on. -/
theorem stepSwitch_rejected {s : Switch} (h : (job.stepSwitch p s).fault = some fault) :
    job.views.cpu = true ∧ s.incoming = .error fault ∧
      (job.stepSwitch p s).progress.seen = p.seen ∧ (job.stepSwitch p s).progress.kept = p.kept ∧
      (job.stepSwitch p s).progress.tally = { p.tally with switches := p.tally.switches + 1 } := by
  cases hcpu : job.views.cpu with
  | false =>
    rw [stepSwitch_off hcpu] at h
    simp at h
  | true =>
    cases hnext : s.incoming with
    | ok next =>
      rw [stepSwitch_eq hcpu p hnext] at h
      simp at h
    | error cause =>
      rw [stepSwitch_error hcpu p hnext] at h ⊢
      obtain rfl : cause = fault := Option.some.inj h
      exact ⟨rfl, rfl, rfl, rfl, rfl⟩

/-- A line that is rejected draws nothing, and nothing but the counts of lines shows that it was
there. This holds whenever it has no record; a switch whose next task has a thread id that cannot
be read is the one other line that is rejected, and what was sighted, kept and counted of other
records is the same after it too. -/
theorem rejected_line_left_out {raw : Text} (h : (job.step p raw).fault = some fault) :
    let s := job.step p raw
    (Line.record job.clock raw = .error fault ∧
      s.drawn = [] ∧ s.progress = { p with tally := p.tally.countAttempt raw }) ∨
    (job.views.cpu = true ∧
      (∃ value, Line.MisnamesNext job.clock raw value ∧ fault = .badField "next_tid" value) ∧
      s.progress.seen = p.seen ∧ s.progress.kept = p.kept ∧
      s.progress.tally = { p.tally with
        lines := p.tally.lines + 1
        switches := s.progress.tally.switches }) := by
  intro s
  have hs : s = job.step p raw := rfl
  rw [step_eq] at h hs
  have hcounted (hread : Line.record job.clock raw ≠ .ok none) :
      p.tally.countLine raw = p.tally.countAttempt raw := p.tally.countLine_eq hread
  cases hrecord : Line.record job.clock raw with
  | error cause =>
    rw [hrecord] at h hs
    obtain rfl : cause = fault := Option.some.inj h
    rw [hs, hcounted (by simp [hrecord])]
    exact .inl ⟨rfl, rfl, rfl⟩
  | ok found =>
    rw [hrecord] at h hs
    cases found with
    | none => simp at h
    | some record =>
      cases record with
      | user u =>
        have hnone := job.stepUser_fault { p with tally := p.tally.countLine raw } u
        simp only [stepRecord, hnone] at h
        simp at h
      | switch switch =>
        simp only [stepRecord] at h hs
        obtain ⟨hcpu, hincoming, hseen, hkept, htally⟩ := stepSwitch_rejected h
        obtain ⟨hidle, hnext⟩ := Switch.incoming_eq_error_iff.mp hincoming
        obtain rfl := Switch.nextThread_eq_error hnext
        have hreroutes := Line.not_reroutes_of_switch hrecord
        refine .inr ⟨hcpu, ⟨_, ⟨switch, hrecord, hidle, rfl, hnext⟩, rfl⟩, ?_, ?_, ?_⟩
        · rw [hs, hseen]
        · rw [hs, hkept]
        · rw [hs, htally, hcounted (by simp [hrecord]), Tally.countAttempt, hreroutes]
          rfl

end

/-- A user line that mentions a switch, with a core that is no number. -/
def mentioningLine : Text :=
  ("[10.000300000] (+0.000001000) host pmtrace:message: \x7b cpu_id = x \x7d, ".toList ++
    "\x7b procname = \"App\", vpid = 100, vtid = 101 \x7d, ".toList ++
    "\x7b text = \"sched_switch\", level = 2 \x7d\n".toList)

/-- After a message and a switch the state is not touched. -/
theorem rejected_line_left_out_mentioning :
    let job := { allViewsJob with keep := true }
    let p := (job.run [userLine "App", switchLine]).progress
    let fault := LineFault.badField "cpu_id" "x".toList
    p ≠ job.start ∧ (job.step p mentioningLine).fault = some fault ∧
    (job.step p mentioningLine).drawn = [] ∧
    (job.step p mentioningLine).progress =
      { p with tally := { p.tally with lines := 3, rerouted := 1 } } := by
  intro job p fault
  have hmoved : p ≠ job.start := by decide +kernel
  have hfault : (job.step p mentioningLine).fault = some fault := by decide +kernel
  have hcounted : p.tally.countAttempt mentioningLine =
      { p.tally with lines := 3, rerouted := 1 } := by decide +kernel
  rcases rejected_line_left_out hfault with ⟨-, hdrawn, hstate⟩ | ⟨-, ⟨value, -, hvalue⟩, -⟩
  · rw [hcounted] at hstate
    exact ⟨hmoved, hfault, hdrawn, hstate⟩
  · simp [fault] at hvalue

/-- A rejected line that draws nothing and changes nothing but the count of lines. -/
def RejectsWhole (job : Job) (p : Progress) (raw : Text) : Prop :=
  (job.step p raw).fault ≠ none →
    (job.step p raw).drawn = [] ∧
      (job.step p raw).progress = { p with tally := { p.tally with lines := p.tally.lines + 1 } }

/-- A line is counted as one that only mentions a switch before it is read. -/
theorem not_rejectsWhole :
    plan allViews Options.new = .ok allViewsJob ∧
      ¬RejectsWhole allViewsJob allViewsJob.start mentioningLine := by
  refine ⟨rfl, fun h => ?_⟩
  have hrejected : (allViewsJob.step allViewsJob.start mentioningLine).fault ≠ none := by
    decide +kernel
  have hcount := congrArg (·.tally.rerouted) (h hrejected).2
  revert hcount
  decide +kernel

end Job
end TraceReport
