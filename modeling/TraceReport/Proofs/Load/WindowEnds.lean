import TraceReport.Proofs.Load.Busy

namespace TraceReport

namespace Micros

variable {time later : Micros} {span more : Nat}

theorem after_eq (h : time + span ≤ limit) : after time span = time + span := Nat.min_eq_left h

theorem le_after (h : time ≤ limit) : time ≤ after time span :=
  Nat.le_min.mpr ⟨Nat.le_add_right time span, h⟩

theorem after_le_add : after time span ≤ time + span := Nat.min_le_left _ _

theorem after_mono (htime : time ≤ later) (hspan : span ≤ more) :
    after time span ≤ after later more := by
  have hadd : time + span ≤ later + more := Nat.add_le_add htime hspan
  exact Nat.le_min.mpr ⟨(Nat.min_le_left _ _).trans hadd, Nat.min_le_right _ _⟩

end Micros

namespace Load

/-- The end of the window that is open at a time; the first switch opens one. -/
def endAt (load : Load) (now : Micros) : Micros :=
  load.windowEnd.getD (Micros.after now load.period)

section

variable (load : Load) (now : Micros)

theorem openWindow_windowEnd : (load.openWindow now).windowEnd = some (load.endAt now) := by
  cases hw : load.windowEnd <;> simp [openWindow, endAt, hw]

theorem openWindow_period : (load.openWindow now).period = load.period := by
  cases hw : load.windowEnd <;> simp [openWindow, hw]

theorem leave_windowEnd (tid : ThreadId) : (load.leave tid now).windowEnd = load.windowEnd := by
  unfold leave
  cases load.running.find? tid <;> rfl

theorem leave_period (tid : ThreadId) : (load.leave tid now).period = load.period := by
  unfold leave
  cases load.running.find? tid <;> rfl

theorem enter_windowEnd (tid : ThreadId) (core : Core) :
    (load.enter tid core now).windowEnd = load.windowEnd := by
  unfold enter
  split_ifs <;> rfl

theorem enter_period (tid : ThreadId) (core : Core) :
    (load.enter tid core now).period = load.period := by
  unfold enter
  split_ifs <;> rfl

theorem vacated_windowEnd (turn : Turn) :
    (load.vacated turn).windowEnd = some (load.endAt turn.time) := by
  unfold vacated
  cases turn.leaving with
  | none => exact load.openWindow_windowEnd turn.time
  | some tid => exact (leave_windowEnd _ _ tid).trans (load.openWindow_windowEnd turn.time)

theorem vacated_period (turn : Turn) : (load.vacated turn).period = load.period := by
  unfold vacated
  cases turn.leaving with
  | none => exact load.openWindow_period turn.time
  | some tid => exact (leave_period _ _ tid).trans (load.openWindow_period turn.time)

/-- The load at the point of a turn where a window may close. -/
def entered (turn : Turn) : Load :=
  turn.entering.elim (load.vacated turn) fun tid =>
    (load.vacated turn).enter tid turn.core turn.time

theorem take_eq (turn : Turn) : load.take turn = (load.entered turn).closeWindow turn.time := rfl

theorem entered_windowEnd (turn : Turn) :
    (load.entered turn).windowEnd = some (load.endAt turn.time) := by
  unfold entered
  cases turn.entering with
  | none => exact load.vacated_windowEnd turn
  | some tid => exact (enter_windowEnd _ _ tid _).trans (load.vacated_windowEnd turn)

theorem entered_period (turn : Turn) : (load.entered turn).period = load.period := by
  unfold entered
  cases turn.entering with
  | none => exact load.vacated_period turn
  | some tid => exact (enter_period _ _ tid _).trans (load.vacated_period turn)

end

section

variable {load : Load} {ending now : Micros}

theorem closeWindow_early (h : load.windowEnd = some ending) (hearly : now < ending) :
    load.closeWindow now = (load, none) := by
  simp only [closeWindow, h, if_pos hearly]

/-- A window is closed at its end or later, and the next one ends a period after that. -/
theorem closeWindow_late (h : load.windowEnd = some ending) (hlate : ¬now < ending) :
    (load.closeWindow now).1.windowEnd = some (Micros.after now load.period) ∧
      (load.closeWindow now).1.period = load.period ∧
      (load.closeWindow now).2.map Window.ending = some ending := by
  simp only [closeWindow, h, if_neg hlate, settle_eq, Option.map_some, and_true, true_and]
  rw [addAll_eq]

end

section

variable {load : Load} {turn : Turn}

/-- A turn leaves a window open whose end it does not reach. -/
theorem take_early (h : turn.time < load.endAt turn.time) :
    (load.take turn).1.windowEnd = some (load.endAt turn.time) ∧
      (load.take turn).1.period = load.period ∧ (load.take turn).2 = none := by
  rw [take_eq, closeWindow_early (load.entered_windowEnd turn) h]
  exact ⟨load.entered_windowEnd turn, load.entered_period turn, rfl⟩

theorem take_late (h : ¬turn.time < load.endAt turn.time) :
    (load.take turn).1.windowEnd = some (Micros.after turn.time load.period) ∧
      (load.take turn).1.period = load.period ∧
      (load.take turn).2.map Window.ending = some (load.endAt turn.time) := by
  have hclosed := closeWindow_late (load.entered_windowEnd turn) h
  rwa [load.entered_period turn] at hclosed

/-- The window a turn closes is the one that is open, if the turn reaches its end. -/
theorem take_closes_iff {ending : Micros} :
    (load.take turn).2.map Window.ending = some ending ↔
      load.endAt turn.time = ending ∧ ending ≤ turn.time := by
  by_cases h : turn.time < load.endAt turn.time
  · rw [(take_early h).2.2]
    simp only [Option.map_none, reduceCtorEq, false_iff, not_and]
    rintro rfl
    exact Nat.not_le.mpr h
  · rw [(take_late h).2.2, Option.some.injEq]
    refine ⟨fun he => ⟨he, he ▸ Nat.not_lt.mp h⟩, And.left⟩

end

/-- The window that is open ends after all of these times, and no earlier than a period after any
of these ends, which come a period after one another. Time stops at its limit. -/
structure Ahead (load : Load) (times ends : List Micros) : Prop where
  seen : ∀ time ∈ times, ∃ ending, load.windowEnd = some ending ∧ Micros.after time 1 ≤ ending
  closed : ∀ earlier ∈ ends,
    ∃ ending, load.windowEnd = some ending ∧ Micros.after earlier load.period ≤ ending
  apart : ends.Pairwise fun earlier later => Micros.after earlier load.period ≤ later

theorem ahead_new (cores period : Nat) : (Load.new cores period).Ahead [] [] :=
  ⟨by simp, by simp, List.Pairwise.nil⟩

namespace Ahead

variable {load : Load} {times ends : List Micros}

theorem seen_endAt (h : load.Ahead times ends) {time : Micros} (hm : time ∈ times) (now : Micros) :
    Micros.after time 1 ≤ load.endAt now := by
  obtain ⟨ending, hw, hle⟩ := h.seen time hm
  rwa [endAt, hw]

theorem closed_endAt (h : load.Ahead times ends) {earlier : Micros} (hm : earlier ∈ ends)
    (now : Micros) : Micros.after earlier load.period ≤ load.endAt now := by
  obtain ⟨ending, hw, hle⟩ := h.closed earlier hm
  rwa [endAt, hw]

theorem vacated (h : load.Ahead times ends) (turn : Turn) :
    (load.vacated turn).Ahead times ends where
  seen _ hm := ⟨_, load.vacated_windowEnd turn, h.seen_endAt hm turn.time⟩
  closed _ hm :=
    ⟨_, load.vacated_windowEnd turn, load.vacated_period turn ▸ h.closed_endAt hm turn.time⟩
  apart := load.vacated_period turn ▸ h.apart

/-- A turn that reaches the end of the window sets the next one from its own time, which is no
earlier than that end and so than all that came before it. -/
theorem take (h : load.Ahead times ends) (hperiod : 1 ≤ load.period) {turn : Turn}
    (htime : turn.time ≤ Micros.limit) :
    (load.take turn).1.Ahead (times ++ [turn.time])
      (ends ++ ((load.take turn).2.map Window.ending).toList) := by
  by_cases hearly : turn.time < load.endAt turn.time
  · obtain ⟨hend, hperiods, hnone⟩ := take_early hearly
    have hnow : Micros.after turn.time 1 ≤ load.endAt turn.time :=
      Micros.after_le_add.trans hearly
    rw [hnone, Option.map_none, Option.toList_none, List.append_nil]
    refine ⟨fun time hm => ⟨_, hend, ?_⟩, fun earlier hm => ⟨_, hend, ?_⟩, hperiods ▸ h.apart⟩
    · rcases List.mem_append.mp hm with hold | hnew
      · exact h.seen_endAt hold turn.time
      · rwa [List.mem_singleton.mp hnew]
    · rw [hperiods]
      exact h.closed_endAt hm turn.time
  · obtain ⟨hend, hperiods, hclosed⟩ := take_late hearly
    have hle : load.endAt turn.time ≤ turn.time := Nat.not_lt.mp hearly
    have hreach : load.endAt turn.time ≤ Micros.after turn.time load.period :=
      hle.trans (Micros.le_after htime)
    rw [hclosed, Option.toList_some]
    refine ⟨fun time hm => ⟨_, hend, ?_⟩, fun earlier hm => ⟨_, hend, ?_⟩, ?_⟩
    · rcases List.mem_append.mp hm with hold | hnew
      · exact (h.seen_endAt hold turn.time).trans hreach
      · rw [List.mem_singleton.mp hnew]
        exact Micros.after_mono (Nat.le_refl _) hperiod
    · rw [hperiods]
      rcases List.mem_append.mp hm with hold | hnew
      · exact (h.closed_endAt hold turn.time).trans hreach
      · rw [List.mem_singleton.mp hnew]
        exact Micros.after_mono hle (Nat.le_refl _)
    · rw [hperiods, List.pairwise_append]
      refine ⟨h.apart, List.pairwise_singleton _ _, fun earlier hm later hnew => ?_⟩
      rw [List.mem_singleton.mp hnew]
      exact h.closed_endAt hm turn.time

end Ahead

end Load
end TraceReport
