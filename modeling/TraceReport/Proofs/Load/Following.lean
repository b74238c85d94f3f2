import TraceReport.Proofs.Load.Overlap
import TraceReport.Proofs.Load.Range

namespace TraceReport.Load

/-- The thread that a call is about. -/
def Call.thread? : Call → Option ThreadId
  | .leave tid _ | .enter tid _ _ => some tid
  | .observe _ | .close _ => none

def Call.time : Call → Micros
  | .observe now | .leave _ now | .enter _ _ now | .close now => now

/-- Up to when a thread has been counted after some calls, if it was up to `since` before them: a
window that closes counts every thread that runs. -/
def countedUpTo (load : Load) (since : Micros) : List Call → Micros
  | [] => since
  | c :: rest =>
    let (next, window) := load.call c
    next.countedUpTo (restarted window since c.time) rest

/-- Every thread that enters the core is recorded on it, and when it leaves, whatever happens to
other threads in between, the core is credited with the time since the thread was last counted. -/
def Follows (load : Load) (core : Core) : Prop :=
  ∀ (tid : ThreadId) (start : Micros),
    let entered := load.enter tid core start
    entered.running.find? tid = some (core, start) ∧
      ∀ between : List Call, (∀ c ∈ between, c.thread? ≠ some tid) → ∀ stop : Micros,
        let last := (entered.calls between).1
        ∃ busy, last.busy[core]? = some busy ∧
          (last.leave tid stop).busy = last.busy.set core
            (min (busy + Micros.since stop (entered.countedUpTo start between)) load.period)

section

variable {load : Load} {cores period : Nat} {tid : ThreadId} {core : Core} {since : Micros}

/-- A call about another thread leaves a thread where it is; closing a window counts it. -/
theorem Bounded.find?_call (h : load.Bounded cores period)
    (hfound : load.running.find? tid = some (core, since)) {c : Call}
    (hother : c.thread? ≠ some tid) :
    (load.call c).1.running.find? tid =
      some (core, restarted (load.call c).2 since c.time) := by
  cases c with
  | observe now =>
    cases hw : load.windowEnd <;> simpa [Load.call, Load.openWindow, hw, restarted] using hfound
  | leave other now =>
    have hne : tid ≠ other := fun heq => hother (congrArg some heq.symm)
    have herased : (load.leave other now).running = load.running.erase other := by
      rw [leave_eq load other now h.ordered, Table.erase_eq_filter other h.ordered]
    simp [Load.call, herased, Table.find?_erase_of_ne hne h.ordered, hfound, restarted]
  | enter other place now =>
    have hne : tid ≠ other := fun heq => hother (congrArg some heq.symm)
    simp only [Load.call, Load.enter, restarted]
    split_ifs
    · rw [Table.find?_insert_of_ne hne, hfound]
      rfl
    · exact hfound
  | close now =>
    cases hw : load.windowEnd with
    | none => simpa [Load.call, Load.closeWindow, hw, restarted] using hfound
    | some ending =>
      by_cases hnow : now < ending
      case pos => simpa [Load.call, Load.closeWindow, hw, hnow, restarted] using hfound
      case neg =>
        have hcounted :=
          Table.find?_map (fun held : Core × Micros => (held.1, now)) tid load.running
        simp only [Load.call, Load.closeWindow, hw, if_neg hnow, settle_eq, restarted]
        rw [hcounted, hfound]
        rfl

theorem Bounded.find?_calls (h : load.Bounded cores period)
    (hfound : load.running.find? tid = some (core, since)) {cs : List Call}
    (hother : ∀ c ∈ cs, c.thread? ≠ some tid) :
    (load.calls cs).1.running.find? tid = some (core, load.countedUpTo since cs) := by
  induction cs generalizing load since with
  | nil => exact hfound
  | cons c rest ih =>
    rw [List.forall_mem_cons] at hother
    exact ih (h.call c).1 (h.find?_call hfound hother.1) hother.2

/-- The core of a thread that leaves is credited with the time since it was last counted. -/
theorem leave_busy (hfound : load.running.find? tid = some (core, since))
    (hcore : core < load.cores) (stop : Micros) :
    ∃ busy, load.busy[core]? = some busy ∧ (load.leave tid stop).busy =
      load.busy.set core (min (busy + Micros.since stop since) load.period) := by
  refine ⟨load.busy[core], List.getElem?_eq_getElem hcore, ?_⟩
  simp only [Load.leave, hfound, Load.addBusy]
  exact List.modify_eq_set_get _ hcore

theorem Bounded.follows (h : load.Bounded cores period) (hcore : core < cores) :
    load.Follows core := by
  intro tid start
  have hknown : core < load.cores := h.cores_eq ▸ hcore
  have hentered : (load.enter tid core start).running.find? tid = some (core, start) := by
    rw [Load.enter, if_pos hknown, Table.find?_insert_self]
  refine ⟨hentered, fun between hother stop => ?_⟩
  have hbounded := h.enter tid core start
  have hlast := (hbounded.calls between).1
  obtain ⟨busy, hbusy, hleft⟩ := leave_busy (hbounded.find?_calls hentered hother)
    (hcore.trans_eq hlast.cores_eq.symm) stop
  exact ⟨busy, hbusy, by rw [hleft, hlast.period_eq, h.period_eq]⟩

/-- A core beyond the known ones is not followed, whatever has happened before. -/
theorem enter_unknown (hcore : load.cores ≤ core) (tid : ThreadId) (now : Micros) :
    load.enter tid core now = load := if_neg (Nat.not_lt.mpr hcore)

theorem not_follows_new {count : Nat} (hcore : max count 1 ≤ core) (period : Nat) :
    ¬(Load.new count period).Follows core := by
  intro h
  have hunknown : (Load.new count period).cores ≤ core :=
    (new_bounded count period).cores_eq.trans_le hcore
  have hentered := (h 0 0).1
  rw [enter_unknown hunknown] at hentered
  cases hentered

end

end TraceReport.Load
