import TraceReport.Proofs.Conversion.Plan
import TraceReport.Proofs.Conversion.Sources

namespace TraceReport

namespace IgnoreRule

/-- A rule matches when it has a condition and all its conditions hold. -/
def Matches (rule : IgnoreRule) (process provider : Text) : Prop :=
  (rule.process.isSome ∨ rule.provider.isSome) ∧
    (∀ name ∈ rule.process, name = process) ∧ ∀ name ∈ rule.provider, name = provider

instance (rule : IgnoreRule) (process provider : Text) :
    Decidable (rule.Matches process provider) :=
  inferInstanceAs (Decidable (_ ∧ _))

theorem covers_iff (rule : IgnoreRule) (process provider : Text) :
    rule.covers process provider = true ↔ rule.Matches process provider := by
  obtain ⟨process?, provider?⟩ := rule
  cases process? <;> cases provider? <;> simp [covers, Matches]

end IgnoreRule

/-- Whether a record is a user record that some rule matches. -/
def Record.excluded (rules : List IgnoreRule) : Record → Bool
  | .user u => decide (∃ rule ∈ rules, rule.Matches u.header.process u.header.provider)
  | .switch _ => false

theorem Settings.ignores_eq (settings : Settings) (u : UserRecord) :
    settings.ignores u.header.process u.header.provider =
      (Record.user u).excluded settings.ignoreRules := by
  rw [Bool.eq_iff_iff, ignores, List.any_eq_true, Record.excluded, decide_eq_true_iff]
  simp only [IgnoreRule.covers_iff]

namespace Job

section

variable (job : Job)

theorem stepRecord_ignored (p : Progress) (record : Record) :
    (job.stepRecord p record).progress.tally.ignored =
      p.tally.ignored + (record.excluded job.settings.ignoreRules).toNat := by
  cases record with
  | switch s =>
    simp only [stepRecord, stepSwitch, Record.excluded]
    split
    · rfl
    · cases s.incoming <;> rfl
  | user u =>
    have hcount : (p.tally.countUser u).ignored = p.tally.ignored := by cases u <;> rfl
    rw [← job.settings.ignores_eq]
    simp only [stepRecord, stepUser]
    cases job.settings.ignores u.header.process u.header.provider with
    | true => exact congrArg (· + 1) hcount
    | false =>
      simp only [Bool.false_eq_true, if_false]
      split <;> exact hcount

theorem run_ignored {log : List Text} (h : (job.run log).fault = none) :
    (job.run log).progress.tally.ignored =
      (Log.records job.clock log).countP (Record.excluded job.settings.ignoreRules) := by
  refine tally_of_run (fun t records =>
    t.ignored = records.countP (Record.excluded job.settings.ignoreRules)) rfl ?_ ?_ h
  · intro t records raw hcounted
    rw [Tally.countLine_ignored, hcounted]
  · intro p records record hcounted
    rw [stepRecord_ignored, hcounted, List.countP_append, List.countP_singleton]
    cases record.excluded job.settings.ignoreRules <;> rfl

end

/-- A job with rules for what to ignore. -/
def governed (job : Job) (rules : List IgnoreRule) : Job :=
  { job with settings := { job.settings with ignoreRules := rules } }

/-- What is known after the last line, when some events of the log were left out: the tracks of all
of it, and the lanes that the events left show. -/
def ending (job : Job) (log : List Text) (told : List (Record × Drawn)) : List Drawn :=
  if job.firstFault log = none then
    job.closingTracks log ++ (job.shownLanes told).map Lane.named
  else []

section

variable {job : Job} (rules : List IgnoreRule)

@[simp] theorem governed_clock : (job.governed rules).clock = job.clock := rfl

@[simp] theorem governed_rules : (job.governed rules).settings.ignoreRules = rules := rfl

/-- With rules, a record draws what it draws without, or nothing if a rule matches it. -/
theorem stepRecord_governed (hfree : job.settings.ignoreRules = []) {p q : Progress}
    (hload : p.load = q.load) (record : Record) :
    ((job.governed rules).stepRecord q record).drawn =
      (job.stepRecord p record).drawn.filter fun _ => !record.excluded rules := by
  cases record with
  | switch s =>
    have hkept : (!(Record.switch s).excluded rules) = true := rfl
    rw [hkept, List.filter_true, stepRecord, stepRecord, stepSwitch_drawn, stepSwitch_drawn, hload]
    rfl
  | user u =>
    have hkept : job.settings.ignores u.header.process u.header.provider = false := by
      rw [Settings.ignores, hfree]
      rfl
    rw [stepRecord, stepRecord, stepUser_drawn, stepUser_drawn, hkept, Settings.ignores_eq,
      governed_rules]
    cases (Record.user u).excluded rules with
    | true => exact (List.filter_false _).symm
    | false => exact (List.filter_true _).symm

theorem told_governed (hfree : job.settings.ignoreRules = []) (log : List Text) :
    (job.governed rules).told log =
      (job.told log).filter fun (record, _) => !record.excluded rules := by
  apply told_filter (fun (record, _) => !record.excluded rules) (governed_clock rules).symm rfl rfl
  exact fun p q record hload => stepRecord_governed rules hfree hload record

theorem firstFault_governed (log : List Text) :
    (job.governed rules).firstFault log = job.firstFault log :=
  firstFault_congr (governed_clock rules) rfl log

theorem ending_governed (log : List Text) (told : List (Record × Drawn)) :
    (job.governed rules).ending log told = job.ending log told := by
  have hclosing : (job.governed rules).closingTracks log = job.closingTracks log :=
    closingTracks_congr (governed_clock rules) rfl rfl rfl log
  rw [ending, ending, firstFault_governed, hclosing]
  rfl

end

theorem plan_governed (settings : Settings) (options : Options) :
    plan settings options =
      (plan { settings with ignoreRules := [] } options).map (·.governed settings.ignoreRules) := by
  obtain ⟨rules, userView, groupView, cpuView⟩ := settings
  unfold plan
  dsimp only [Options.effectiveViews, Views.ofSettings]
  split
  · rfl
  · split <;> rfl

/-- Rules for what to ignore only leave out what the user records show that they match, and the
lanes of groups that nothing else shows. Such records are counted, and still name their tracks. -/
theorem ignore_rules_leave_out (settings : Settings) (options : Options) (log : List Text) :
    let rules := settings.ignoreRules
    match plan { settings with ignoreRules := [] } options with
    | .error fault => plan settings options = .error fault
    | .ok free =>
      let job := free.governed rules
      let kept := (free.told log).filter fun (record, _) => !record.excluded rules
      plan settings options = .ok job ∧
      (free.convert log).drawn =
        (free.told log).map Prod.snd ++ free.ending log (free.told log) ∧
      (job.convert log).drawn = kept.map Prod.snd ++ free.ending log kept ∧
      (job.convert log).result.map (·.tally.ignored) =
        (free.convert log).result.map fun _ =>
          (Log.records free.clock log).countP (Record.excluded rules) := by
  intro rules
  rw [plan_governed settings options]
  cases hjob : plan { settings with ignoreRules := [] } options with
  | error fault => rfl
  | ok free =>
    let job := free.governed rules
    have hfree : free.settings.ignoreRules = [] := by rw [(eq_of_plan hjob).2.2]
    have hfault : job.firstFault log = free.firstFault log := firstFault_governed rules log
    refine ⟨rfl, free.convert_told log, ?_, ?_⟩
    · rw [← ending_governed rules, ← told_governed rules hfree]
      exact job.convert_told log
    · rw [convert_result, convert_result, hfault]
      cases hf : free.firstFault log with
      | some fault => rfl
      | none =>
        have hpassed : (job.run log).fault = none := by rw [(job.run_fault log).1, hfault, hf]
        exact congrArg Except.ok (job.run_ignored hpassed)

end Job
end TraceReport
