import TraceReport.Proofs.Conversion.Intervals
import TraceReport.Proofs.Conversion.Plan

namespace TraceReport

namespace Switch

section

variable {s : Switch} {fault : LineFault}

theorem incoming_eq_error_iff :
    s.incoming = .error fault ↔ idleThread? s.nextName = none ∧ s.nextThread = .error fault := by
  unfold incoming
  cases idleThread? s.nextName with
  | some idle => simp
  | none =>
    cases s.nextThread with
    | ok tid => simp [Except.map]
    | error cause => simp [Except.map]

theorem nextThread_eq_error (h : s.nextThread = .error fault) :
    fault = .badField "next_tid" (s.header.value "next_tid".toList) := by
  unfold nextThread Header.integer? at h
  split at h
  · cases h
  · exact (Except.error.inj h).symm

end

end Switch

/-- A line tells of a switch to a task that is not idle and whose thread id cannot be read. -/
def Line.MisnamesNext (clock : Clock) (raw : Text) (value : Text) : Prop :=
  ∃ s, Line.record clock raw = .ok (some (.switch s)) ∧ idleThread? s.nextName = none ∧
    s.header.value "next_tid".toList = value ∧ s.nextThread = .error (.badField "next_tid" value)

namespace Job

section

variable {job other : Job}

/-- Without cores a line is read alike, but for the thread id of the task that enters. -/
theorem lineFault_cases (hclock : job.clock = other.clock) (hcpu : job.views.cpu = true)
    (hoff : other.views.cpu = false) (raw : Text) :
    job.lineFault raw = other.lineFault raw ∨
      ∃ value, Line.MisnamesNext job.clock raw value ∧
        job.lineFault raw = some (.badField "next_tid" value) ∧ other.lineFault raw = none := by
  cases hrecord : Line.record job.clock raw with
  | error fault => exact .inl (by simp only [lineFault, ← hclock, hrecord])
  | ok found =>
    cases found with
    | none => exact .inl (by simp only [lineFault, ← hclock, hrecord])
    | some record =>
      cases record with
      | user u => exact .inl (by simp only [lineFault, ← hclock, hrecord])
      | switch s =>
        have hpassed : other.lineFault raw = none := by simp [lineFault, ← hclock, hrecord, hoff]
        cases hincoming : s.incoming with
        | ok entering =>
          have hread : job.lineFault raw = none := by simp [lineFault, hrecord, hcpu, hincoming]
          exact .inl (hread.trans hpassed.symm)
        | error fault =>
          have hstopped : job.lineFault raw = some fault := by
            simp [lineFault, hrecord, hcpu, hincoming]
          obtain ⟨hidle, hnext⟩ := Switch.incoming_eq_error_iff.mp hincoming
          obtain rfl := Switch.nextThread_eq_error hnext
          exact .inr ⟨_, ⟨s, hrecord, hidle, rfl, hnext⟩, hstopped, hpassed⟩

/-- Without cores a run stops at the same line with the same fault, or it passes over the line the
other run stops at, which misnames the next task. -/
theorem firstFault_cases (hclock : job.clock = other.clock) (hcpu : job.views.cpu = true)
    (hoff : other.views.cpu = false) (log : List Text) :
    job.firstFault log = other.firstFault log ∨
      ∃ n raw value, log[n]? = some raw ∧ Line.MisnamesNext job.clock raw value ∧
        job.firstFault log = some (.badLine (n + 1) (.badField "next_tid" value)) ∧
        ∀ later, other.firstFault log = some later →
          ∃ m cause, later = .badLine (m + 1) cause ∧ n < m := by
  induction log using List.reverseRecOn with
  | nil =>
    have hnone (job : Job) : job.firstFault [] = none := rfl
    exact .inl ((hnone job).trans (hnone other).symm)
  | append_singleton before raw ih =>
    rw [firstFault_append, firstFault_append]
    rcases ih with hsame | hpassed
    · rw [hsame]
      rcases lineFault_cases hclock hcpu hoff raw with hline | hline
      · rw [hline]
        exact .inl rfl
      · obtain ⟨value, hnext, hfault, hnone⟩ := hline
        cases hfirst : other.firstFault before with
        | some fault =>
          rw [Option.some_or, Option.some_or]
          exact .inl rfl
        | none =>
          refine .inr ⟨before.length, raw, value, List.getElem?_concat_length, hnext, ?_, ?_⟩
          · rw [hfault]
            rfl
          · intro later hlater
            rw [hnone] at hlater
            simp at hlater
    · obtain ⟨n, stop, value, hstop, hnext, hfault, hlater⟩ := hpassed
      have hn : n < before.length := (List.getElem?_eq_some_iff.mp hstop).1
      refine .inr ⟨n, stop, value, ?_, hnext, ?_, ?_⟩
      · rw [List.getElem?_append_left hn]
        exact hstop
      · rw [hfault, Option.some_or]
      · intro later hl
        cases hfirst : other.firstFault before with
        | some fault =>
          rw [hfirst, Option.some_or] at hl
          rw [hfirst] at hlater
          exact hlater later hl
        | none =>
          rw [hfirst, Option.none_or] at hl
          obtain ⟨cause, -, hcause⟩ := Option.map_eq_some_iff.mp hl
          exact ⟨before.length, cause, hcause.symm, hn⟩

end

/-- A conversion ends with the fault of the first line that stops it, or it succeeds. -/
theorem ending_eq (job : Job) (log : List Text) :
    (job.convert log).result.map (fun _ => ()) =
      match job.firstFault log with
      | some fault => .error fault
      | none => .ok () := by
  rw [convert_result]
  cases job.firstFault log with
  | some fault => rfl
  | none => rfl

end Job

/-- How a conversion ends that draws some views in place of those of the options. -/
def endingOf (settings : Settings) (options : Options) (input : Bytes) (views : Option Views) :
    Except ConversionFault Unit :=
  (convert settings { options with views } none input).2.map fun _ => ()

section

variable {settings : Settings} {options : Options}

theorem endingOf_eq {views : Option Views} {job : Job} (input : Bytes)
    (hplan : Job.plan settings { options with views } = .ok job) :
    endingOf settings options input views =
      match job.firstFault (Log.texts input) with
      | some fault => .error fault
      | none => .ok () := by
  rw [← Job.ending_eq, endingOf, convert, hplan]
  rfl

/-- Options that draw some view are refused for their period only. -/
theorem plan_cases {views : Option Views}
    (hviews : (views.getD (.ofSettings settings)).isEmpty = false) :
    (Options.periodAllowed options.periodMillis = false ∧
      Job.plan settings { options with views } = .error (.badPeriod options.periodMillis)) ∨
    (Options.periodAllowed options.periodMillis = true ∧
      ∃ job, Job.plan settings { options with views } = .ok job ∧ job.clock = ⟨options.boot⟩ ∧
        job.views = views.getD (.ofSettings settings)) := by
  have heffective : ({ options with views } : Options).effectiveViews settings =
      views.getD (.ofSettings settings) := rfl
  unfold Job.plan
  simp only [heffective, hviews]
  cases Options.periodAllowed options.periodMillis with
  | false => exact .inl ⟨rfl, rfl⟩
  | true => exact .inr ⟨rfl, _, rfl, rfl, rfl⟩

/-- Which logs are accepted depends on whether cores are drawn, and on no other view. A log that is
refused with cores and not alike without them is refused for a switch whose next task has a thread
id that cannot be read; without cores it is accepted or refused for a later line. -/
theorem acceptance_of_views {a b : Option Views} (input : Bytes)
    (ha : (a.getD (.ofSettings settings)).isEmpty = false)
    (hb : (b.getD (.ofSettings settings)).isEmpty = false) :
    let cores (views : Option Views) := (views.getD (.ofSettings settings)).cpu
    let ending := endingOf settings options input
    (cores a = cores b → ending a = ending b) ∧
    (cores a = true → cores b = false → ending a = ending b ∨
      ∃ n raw value, (Log.texts input)[n]? = some raw ∧
        Line.MisnamesNext ⟨options.boot⟩ raw value ∧
        ending a = .error (.badLine (n + 1) (.badField "next_tid" value)) ∧
        ∀ fault, ending b = .error fault → ∃ m cause, fault = .badLine (m + 1) cause ∧ n < m) := by
  intro cores ending
  rcases plan_cases ha with ⟨hperiod, hrefused⟩ | ⟨hperiod, job, hjob, hclock, hviews⟩
  · have hboth : ending a = ending b := by
      rcases plan_cases hb with ⟨-, hrefused'⟩ | ⟨hallowed, -⟩
      · show endingOf settings options input a = endingOf settings options input b
        rw [endingOf, endingOf, convert, convert, hrefused, hrefused']
      · rw [hperiod] at hallowed
        exact absurd hallowed Bool.false_ne_true
    exact ⟨fun _ => hboth, fun _ _ => .inl hboth⟩
  · obtain ⟨other, hother, hclock', hviews'⟩ : ∃ other,
        Job.plan settings { options with views := b } = .ok other ∧
          other.clock = ⟨options.boot⟩ ∧ other.views = b.getD (.ofSettings settings) := by
      rcases plan_cases hb with ⟨hrefused, -⟩ | ⟨-, hplanned⟩
      · rw [hperiod] at hrefused
        exact absurd hrefused.symm Bool.false_ne_true
      · exact hplanned
    have hsame : job.clock = other.clock := hclock.trans hclock'.symm
    have hcores : job.views.cpu = cores a := congrArg Views.cpu hviews
    have hcores' : other.views.cpu = cores b := congrArg Views.cpu hviews'
    have hending := endingOf_eq input hjob
    have hending' := endingOf_eq input hother
    constructor
    · intro hcpu
      have hfault := Job.firstFault_congr hsame (hcores.trans (hcpu.trans hcores'.symm))
        (Log.texts input)
      show endingOf settings options input a = endingOf settings options input b
      rw [hending, hending', hfault]
    · intro hon hoff
      rcases Job.firstFault_cases hsame (hcores.trans hon) (hcores'.trans hoff) (Log.texts input)
        with hfault | ⟨n, raw, value, hraw, hnext, hfault, hlater⟩
      · apply Or.inl
        show endingOf settings options input a = endingOf settings options input b
        rw [hending, hending', hfault]
      · rw [hclock] at hnext
        refine .inr ⟨n, raw, value, hraw, hnext, ?_, ?_⟩
        · show endingOf settings options input a = _
          rw [hending, hfault]
        · intro fault hfails
          have hfirst : other.firstFault (Log.texts input) = some fault := by
            have h : endingOf settings options input b = .error fault := hfails
            rw [hending'] at h
            cases hf : other.firstFault (Log.texts input) with
            | none => simp [hf] at h
            | some found =>
              rw [hf] at h
              exact congrArg some (Except.error.inj h)
          exact hlater fault hfirst

end

/-- Settings that draw threads and cores. -/
def userAndCores : Settings := ⟨[], true, ⟨false, []⟩, true⟩

/-- A switch to a task with a thread id that is no number. -/
def misnamed : Bytes :=
  Utf8.encode (Job.taskLine "[10.000100000]" "0" "swapper/0" "0" "App" "x5")

theorem acceptance_of_views_misnamed :
    let cores : Option Views := none
    let user : Option Views := some ⟨true, false, false⟩
    let ending := endingOf userAndCores Options.new misnamed
    (cores.getD (.ofSettings userAndCores)).isEmpty = false ∧
    (user.getD (.ofSettings userAndCores)).isEmpty = false ∧
    (ending user).isOk = true ∧ (ending cores).isOk = false ∧
    ∃ n raw value, (Log.texts misnamed)[n]? = some raw ∧ Line.MisnamesNext ⟨none⟩ raw value ∧
      ending cores = .error (.badLine (n + 1) (.badField "next_tid" value)) := by
  intro cores user ending
  have hends : (ending user).isOk = true ∧ (ending cores).isOk = false := by decide +kernel
  have hcases := (@acceptance_of_views userAndCores Options.new cores user misnamed rfl rfl).2 rfl rfl
  refine ⟨rfl, rfl, hends.1, hends.2, ?_⟩
  rcases hcases with hsame | ⟨n, raw, value, hraw, hnext, hfault, -⟩
  · have hsame' : ending cores = ending user := hsame
    rw [hsame', hends.1] at hends
    exact absurd hends.2 (by decide)
  · exact ⟨n, raw, value, hraw, hnext, hfault⟩

/-- A log is accepted, or refused alike, whatever views are drawn. -/
def AcceptedAlike (settings : Settings) (options : Options) (input : Bytes) : Prop :=
  ∀ v w : Views, v.isEmpty = false → w.isEmpty = false →
    endingOf settings options input (some v) = endingOf settings options input (some w)

/-- Without cores the thread id of the next task is not read. -/
theorem not_acceptedAlike : ¬AcceptedAlike userAndCores Options.new misnamed := by
  intro h
  have hsame := h ⟨true, false, false⟩ ⟨false, false, true⟩ rfl rfl
  have huser : (endingOf userAndCores Options.new misnamed (some ⟨true, false, false⟩)).isOk = true :=
    by decide +kernel
  have hcores :
      (endingOf userAndCores Options.new misnamed (some ⟨false, false, true⟩)).isOk = false := by
    decide +kernel
  rw [hsame, hcores] at huser
  exact Bool.false_ne_true huser

end TraceReport
