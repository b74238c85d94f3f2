import Mathlib.Tactic.SplitIfs
import TraceReport.Conversion.Basic

namespace TraceReport.Job

/-- The job of allowed options: some view is drawn, and the period is in its range. -/
theorem eq_of_plan {settings : Settings} {options : Options} {job : Job}
    (h : plan settings options = .ok job) :
    (options.effectiveViews settings).isEmpty = false ∧
      Options.periodAllowed options.periodMillis = true ∧
      job = {
        settings
        views := options.effectiveViews settings
        processes := options.processes
        clock := ⟨options.boot⟩
        groups := if (options.effectiveViews settings).group then .ofSettings settings else .none
        cores := options.cores
        periodMicros := 1000 * options.periodMillis
        keep := options.keep } := by
  unfold plan at h
  by_cases hv : (options.effectiveViews settings).isEmpty = true
  · simp [hv] at h
  · by_cases hp : Options.periodAllowed options.periodMillis = true
    · simp only [hv, hp] at h
      exact ⟨by simpa using hv, hp, (Except.ok.inj h).symm⟩
    · simp [hv, hp] at h

end TraceReport.Job
