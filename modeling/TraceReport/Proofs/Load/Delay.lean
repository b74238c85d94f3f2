import TraceReport.Proofs.Load.Busy

namespace TraceReport

theorem Micros.after_add {time span period : Nat} (h : time + span + period ≤ Micros.limit) :
    Micros.after (time + span) period = Micros.after time period + span := by
  have hearly : time + period ≤ Micros.limit := by omega
  rw [Micros.after, Micros.after, Nat.min_eq_left hearly, Nat.add_right_comm,
    Nat.min_eq_left (Nat.add_right_comm time span period ▸ h)]

theorem Micros.since_add (time earlier span : Nat) :
    Micros.since (time + span) (earlier + span) = Micros.since time earlier :=
  Nat.add_sub_add_right time span earlier

/-- The same turn so much later. -/
def Turn.delay (span : Nat) (turn : Turn) : Turn := { turn with time := turn.time + span }

/-- The same window so much later. -/
def Window.delay (span : Nat) (w : Window) : Window := { w with ending := w.ending + span }

namespace Load

/-- A place on a core, counted up to a time that is so much later. -/
def delayHeld (span : Nat) (held : Core × Micros) : Core × Micros := (held.1, held.2 + span)

/-- The same load so much later. A load that has seen no switch holds no time at all. -/
def delay (span : Nat) (load : Load) : Load :=
  { load with
    windowEnd := load.windowEnd.map (· + span)
    running := load.running.map fun (tid, held) => (tid, delayHeld span held) }

section

variable (load : Load) (span : Nat)

@[simp] theorem delay_cores : (load.delay span).cores = load.cores := rfl

theorem addAll_delay (credits : List (Core × Nat)) :
    (load.delay span).addAll credits = (load.addAll credits).delay span := by
  induction credits generalizing load with
  | nil => rfl
  | cons credit rest ih => exact ih (load.addBusy credit.1 credit.2)

theorem owed_delay (now : Micros) : (load.delay span).owed (now + span) = load.owed now := by
  rw [owed, owed, delay, List.map_map]
  apply List.map_congr_left
  intro entry _
  exact congrArg (Prod.mk entry.2.1) (Micros.since_add now entry.2.2 span)

theorem find?_delay (tid : ThreadId) :
    (load.delay span).running.find? tid =
      (load.running.find? tid).map (delayHeld span) :=
  Table.find?_map (delayHeld span) tid load.running

theorem leave_delay (tid : ThreadId) (now : Micros) :
    (load.delay span).leave tid (now + span) = (load.leave tid now).delay span := by
  unfold leave
  rw [find?_delay]
  cases load.running.find? tid with
  | none => rfl
  | some found =>
    have herase : (load.delay span).running.erase tid =
        (load.running.erase tid).map fun (tid, held) => (tid, delayHeld span held) :=
      Table.erase_map (delayHeld span) tid load.running
    simp only [Option.map_some, herase, delayHeld, Micros.since_add]
    rfl

theorem enter_delay (tid : ThreadId) (core : Core) (now : Micros) :
    (load.delay span).enter tid core (now + span) = (load.enter tid core now).delay span := by
  have hinsert : (load.delay span).running.insert tid (core, now + span) =
      (load.running.insert tid (core, now)).map fun (tid, held) => (tid, delayHeld span held) :=
    Table.insert_map (delayHeld span) tid load.running (core, now)
  unfold enter
  rw [delay_cores, hinsert]
  split_ifs <;> rfl

theorem settle_delay (now : Micros) :
    (load.delay span).settle (now + span) = (load.settle now).delay span := by
  rw [settle_eq, settle_eq, owed_delay, addAll_delay]
  simp only [delay, List.map_map]
  rfl

end

section

variable {load : Load} {now : Micros} {span : Nat}

theorem openWindow_delay (h : now + span + load.period ≤ Micros.limit) :
    (load.delay span).openWindow (now + span) = (load.openWindow now).delay span := by
  cases hw : load.windowEnd with
  | some ending => simp [openWindow, delay, hw]
  | none => simp [openWindow, delay, hw, Micros.after_add h]

theorem closeWindow_delay (h : now + span + load.period ≤ Micros.limit) :
    (load.delay span).closeWindow (now + span) =
      ((load.closeWindow now).1.delay span, (load.closeWindow now).2.map (Window.delay span)) := by
  unfold closeWindow
  cases hw : load.windowEnd with
  | none => simp [delay, hw]
  | some ending =>
    have hend : (load.delay span).windowEnd = some (ending + span) := by simp [delay, hw]
    have hafter : Micros.after (now + span) (load.delay span).period =
        Micros.after now load.period + span := Micros.after_add h
    have hreached : now + span < ending + span ↔ now < ending := Nat.add_lt_add_iff_right
    simp only [hend, hreached, settle_delay, hafter]
    split_ifs <;> rfl

end

section

variable {load : Load} {turn : Turn} {span cores period : Nat}

theorem vacated_delay (h : turn.time + span + load.period ≤ Micros.limit) :
    (load.delay span).vacated (turn.delay span) = (load.vacated turn).delay span := by
  have hopened := openWindow_delay h
  unfold vacated
  simp only [Turn.delay, hopened]
  cases turn.leaving with
  | none => rfl
  | some tid => exact leave_delay _ span tid turn.time

/-- As long as no window ends past the limit, turns that come later by one span do the same, so
much later. -/
theorem take_delay (hb : load.Bounded cores period)
    (h : turn.time + span + period ≤ Micros.limit) :
    (load.delay span).take (turn.delay span) =
      ((load.take turn).1.delay span, (load.take turn).2.map (Window.delay span)) := by
  have hvacated := hb.vacated turn
  have hdelayed := vacated_delay (hb.period_eq.symm ▸ h)
  unfold take
  rw [hdelayed]
  cases he : turn.entering with
  | none =>
    have hfits := hvacated.period_eq.symm ▸ h
    simp only [Turn.delay, he, Option.elim_none]
    exact closeWindow_delay hfits
  | some tid =>
    have hfits := (hvacated.enter tid turn.core turn.time).period_eq.symm ▸ h
    simp only [Turn.delay, he, Option.elim_some, enter_delay]
    exact closeWindow_delay hfits

end

end Load
end TraceReport
