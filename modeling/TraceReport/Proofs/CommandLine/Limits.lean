import TraceReport.CommandLine.Program
import TraceReport.Proofs.Conversion.Plan
import TraceReport.Proofs.Outcome

namespace TraceReport.Arguments

/-- The numbers on the command line stay within the ranges of their options. -/
structure Limited (a : Arguments) : Prop where
  period_le : ∀ n ∈ a.period, n ≤ Options.greatestPeriodMillis
  cores_le : ∀ n ∈ a.cores, n ≤ greatestCores

theorem none_limited : none.Limited := ⟨by simp [none], by simp [none]⟩

theorem number_le {limit n : Nat} {value : Text} (h : number limit value = .ok n) :
    n ≤ limit := by
  unfold number at h
  cases hn : Numeral.natural? limit value with
  | none => simp [hn] at h
  | some m =>
    simp only [hn] at h
    split_ifs at h
    cases h
    exact Numeral.natural_le (Numeral.natural?_eq_some_iff.mp hn)

theorem of_once {α : Type} {given : Option α} {value : Except Halt α} {v : Option α}
    (h : once given value = .ok v) : ∃ x, value = .ok x ∧ v = some x := by
  cases given with
  | some old => simp [once] at h
  | none =>
    obtain ⟨x, hx, rfl⟩ := map_eq_ok_iff.mp h
    exact ⟨x, hx, rfl⟩

theorem Limited.take {a b : Arguments} (ha : a.Limited) {key : Key} {value : Text}
    (h : a.take key value = .ok b) : b.Limited := by
  cases key with
  | debug | help | version => simp [Arguments.take] at h
  | processes =>
    cases h
    exact ⟨ha.period_le, ha.cores_le⟩
  | settings | input | output | dumpDirectory | views =>
    obtain ⟨v, -, rfl⟩ := map_eq_ok_iff.mp h
    exact ⟨ha.period_le, ha.cores_le⟩
  | period =>
    obtain ⟨v, hv, rfl⟩ := map_eq_ok_iff.mp h
    obtain ⟨n, hn, rfl⟩ := of_once hv
    refine ⟨?_, ha.cores_le⟩
    rintro m hm
    cases hm
    exact number_le hn
  | cores =>
    obtain ⟨v, hv, rfl⟩ := map_eq_ok_iff.mp h
    obtain ⟨n, hn, rfl⟩ := of_once hv
    refine ⟨ha.period_le, ?_⟩
    rintro m hm
    cases hm
    exact number_le hn

theorem Limited.flag {a b : Arguments} (ha : a.Limited) {key : Key} (h : a.flag key = .ok b) :
    b.Limited := by
  cases key with
  | debug =>
    simp only [Arguments.flag] at h
    split_ifs at h
    cases h
    exact ⟨ha.period_le, ha.cores_le⟩
  | _ => simp [Arguments.flag] at h

namespace Reading

theorem settle_limited {r : Reading} {a : Arguments} (hr : r.given.Limited)
    (h : r.settle = .ok a) : a.Limited := by
  unfold settle at h
  split at h
  · cases h
    exact hr
  · cases h
  · exact hr.take h

theorem taking_limited {r s : Reading} {key : Key} {value : Text} (hr : r.given.Limited)
    (h : r.taking key value = .ok s) : s.given.Limited := by
  obtain ⟨settled, hs, h⟩ := bind_eq_ok_iff.mp h
  obtain ⟨given, hg, h⟩ := bind_eq_ok_iff.mp h
  cases h
  exact (settle_limited hr hs).take hg

theorem flagging_limited {r s : Reading} {key : Key} (hr : r.given.Limited)
    (h : r.flagging key = .ok s) : s.given.Limited := by
  obtain ⟨settled, hs, h⟩ := bind_eq_ok_iff.mp h
  obtain ⟨given, hg, h⟩ := bind_eq_ok_iff.mp h
  cases h
  exact (settle_limited hr hs).flag hg

theorem awaiting_limited {r s : Reading} {key : Key} (hr : r.given.Limited)
    (h : r.awaiting key = .ok s) : s.given.Limited := by
  obtain ⟨settled, hs, h⟩ := bind_eq_ok_iff.mp h
  cases h
  exact settle_limited hr hs

theorem long_limited {r s : Reading} {text : Text} (hr : r.given.Limited)
    (h : r.long text = .ok s) : s.given.Limited := by
  simp only [long] at h
  split at h
  · cases h
  · split at h
    · exact taking_limited hr h
    · exact awaiting_limited hr h
    · cases h
    · exact flagging_limited hr h

theorem short_limited {r s : Reading} {text : Text} (hr : r.given.Limited)
    (h : r.short text = .ok s) : s.given.Limited := by
  induction text generalizing r with
  | nil =>
    cases h
    exact hr
  | cons letter rest ih =>
    simp only [short] at h
    split at h
    · cases h
    · split_ifs at h
      · split at h
        · exact awaiting_limited hr h
        · exact taking_limited hr h
        · exact taking_limited hr h
      · obtain ⟨next, hn, h⟩ := bind_eq_ok_iff.mp h
        exact ih (flagging_limited hr hn) h

theorem word_limited {r s : Reading} {text : Text} (hr : r.given.Limited)
    (h : r.word text = .ok s) : s.given.Limited := by
  unfold word at h
  split at h
  · cases h
    exact hr
  · cases h

theorem finish_limited {r : Reading} {a : Arguments} (hr : r.given.Limited)
    (h : r.finish = .ok a) : a.Limited := by
  obtain ⟨given, hg, h⟩ := bind_eq_ok_iff.mp h
  split_ifs at h
  cases h
  exact settle_limited hr hg

theorem all_limited {r : Reading} {a : Arguments} {words : List Text} (hr : r.given.Limited)
    (h : r.all words = .ok a) : a.Limited := by
  induction words generalizing r with
  | nil => exact finish_limited hr h
  | cons text rest ih =>
    simp only [all] at h
    split at h
    · split_ifs at h
      exact finish_limited hr h
    · obtain ⟨next, hn, h⟩ := bind_eq_ok_iff.mp h
      exact ih (long_limited hr hn) h
    · obtain ⟨next, hn, h⟩ := bind_eq_ok_iff.mp h
      exact ih (short_limited hr hn) h
    · obtain ⟨next, hn, h⟩ := bind_eq_ok_iff.mp h
      exact ih (word_limited hr hn) h

end Reading

theorem read_limited {words : List Text} {a : Arguments} (h : read words = .ok a) : a.Limited :=
  Reading.all_limited none_limited h

/-- No number of cores and no period that the command line lets through makes the busy times of a
window add up to more than 64 bits hold. -/
theorem read_busy_fits {words : List Text} {a : Arguments} {boot : Option Nat} {cores : Nat}
    {settings : Settings} {job : Job} (hr : read words = .ok a) (hc : a.cores = some cores)
    (hj : Job.plan settings (Program.session a boot cores).options = .ok job) :
    max job.periodMicros 1 * max job.cores 1 < UInt64.size := by
  have hl := read_limited hr
  have hcores := hl.cores_le cores hc
  have hperiod : a.period.getD Options.defaultPeriodMillis ≤ Options.greatestPeriodMillis := by
    cases hp : a.period with
    | none => decide
    | some n => exact hl.period_le n hp
  obtain ⟨-, -, rfl⟩ := Job.eq_of_plan hj
  simp only [Program.session]
  generalize a.period.getD Options.defaultPeriodMillis = millis at hperiod ⊢
  simp only [greatestCores, Options.greatestPeriodMillis] at hcores hperiod
  calc
    max (1000 * millis) 1 * max cores 1 ≤ 1000000 * 65535 :=
      Nat.mul_le_mul (by omega) (by omega)
    _ < UInt64.size := by decide

end TraceReport.Arguments
