import Mathlib.Data.List.Basic
import Mathlib.Tactic.SplitIfs
import TraceReport.Proofs.Load.Stays

namespace TraceReport

namespace Stay

/-- The entry of a stay that lasts on a known core, counted since its start or since `r`. -/
def slot? (cores : Nat) (r : Micros) (s : Stay) : Option (ThreadId × Core × Micros) :=
  if s.stop = none ∧ s.core < cores then some (s.thread, s.core, max s.start r) else none

theorem slot?_thread {cores : Nat} {r : Micros} {s : Stay} {entry : ThreadId × Core × Micros}
    (h : s.slot? cores r = some entry) : entry.1 = s.thread := by
  unfold slot? at h
  split_ifs at h with hs
  exact (Option.some.inj h) ▸ rfl

/-- A thread that leaves takes its entry with it. -/
theorem slot?_leave (cores : Nat) (r now : Micros) (tid : ThreadId) (s : Stay) :
    (s.leave tid now).slot? cores r = (s.slot? cores r).filter fun entry => entry.1 ≠ tid := by
  cases hs : s.stop with
  | some stop => simp [leave, slot?, hs]
  | none =>
    by_cases hk : s.core < cores
    · by_cases ht : s.thread = tid <;> simp [leave, slot?, Option.filter, hs, hk, ht]
    · by_cases ht : s.thread = tid <;> simp [leave, slot?, hs, hk, ht]

/-- The time that ended stays took on a core since `r`. -/
def spentOn (core : Core) (r : Micros) (stays : List Stay) : Nat :=
  (stays.map fun s => if s.core = core then s.spent r else 0).sum

theorem onCore_eq (core : Core) (r t : Micros) (stays : List Stay) :
    onCore core r t stays =
      (stays.map fun s => if s.core = core then s.overlap r t else 0).sum := by
  induction stays with
  | nil => rfl
  | cons s rest ih =>
    by_cases h : s.core = core
    · simp [onCore, h, ← ih]
    · simp [onCore, h, ← ih]

theorem slot?_lasting (s : Stay) {core cores : Nat} (hc : core < cores) (r now : Micros) :
    ((s.slot? cores r).map fun e => if e.2.1 = core then now - e.2.2 else 0).getD 0 =
      if s.core = core then s.lasting r now else 0 := by
  unfold slot? lasting
  cases hs : s.stop with
  | some stop => simp
  | none =>
    by_cases hk : s.core = core
    · have hlt : s.core < cores := hk ▸ hc
      simp [hk, hc]
    · split_ifs <;> simp [hk]

end Stay

namespace Load

/-- The time that credits add to a core. -/
def creditOn (core : Core) (credits : List (Core × Nat)) : Nat :=
  (credits.map fun credit => if credit.1 = core then credit.2 else 0).sum

/-- Cutting off at the period after each credit is cutting off once after all of them. -/
theorem addAll_busy {load : Load} {core : Core} {n : Nat} (credits : List (Core × Nat))
    (h : load.busy[core]? = some (min n load.period)) :
    (load.addAll credits).busy[core]? = some (min (n + creditOn core credits) load.period) := by
  induction credits generalizing load n with
  | nil => simpa [creditOn] using h
  | cons credit rest ih =>
    obtain ⟨c, span⟩ := credit
    rw [addAll_cons]
    by_cases hc : c = core
    · have hadd : (load.addBusy c span).busy[core]? = some (min (n + span) load.period) := by
        rw [addBusy_busy, if_pos hc, h, Option.map_some]
        congr 1
        omega
      rw [ih hadd]
      simp [creditOn, hc, Nat.add_assoc]
    · have hkeep : (load.addBusy c span).busy[core]? = some (min n load.period) := by
        rw [addBusy_busy, if_neg hc, h]
      rw [ih hkeep]
      simp [creditOn, hc]

/-- A load that agrees with the stays so far, in a window that counts since `r`: the threads that
run are those whose stay lasts, and the busy times are those of the stays that have ended. -/
structure Tracks (load : Load) (stays : List Stay) (r : Micros) : Prop where
  ordered : Table.Ordered load.running
  running : load.running.Perm (stays.filterMap (Stay.slot? load.cores r))
  busy : ∀ core < load.cores,
    load.busy[core]? = some (min (Stay.spentOn core r stays) load.period)

theorem new_tracks (cores period : Nat) (r : Micros) : (Load.new cores period).Tracks [] r where
  ordered := List.Pairwise.nil
  running := List.Perm.refl _
  busy core hc := by
    have hlt : core < max cores 1 := by simpa [Load.new, Load.cores] using hc
    simp [Load.new, Stay.spentOn, hlt]

section

variable {load : Load} {stays : List Stay} {r now : Micros}

theorem Tracks.openWindow (h : load.Tracks stays r) (now : Micros) :
    (load.openWindow now).Tracks stays r := by
  unfold Load.openWindow
  cases load.windowEnd with
  | some ending => exact h
  | none => exact ⟨h.ordered, h.running, h.busy⟩

/-- What a sum over the running threads is, over the stays. -/
theorem Tracks.sum_running (h : load.Tracks stays r) (f : ThreadId × Core × Micros → Nat) :
    (load.running.map f).sum =
      (stays.map fun s => ((s.slot? load.cores r).map f).getD 0).sum := by
  rw [(h.running.map f).sum_eq]
  clear h
  induction stays with
  | nil => rfl
  | cons s rest ih =>
    cases he : s.slot? load.cores r with
    | none => simp [he, ih]
    | some entry => simp [he, ih]

/-- What the threads that run are owed, on one core. -/
theorem Tracks.creditOn_owed (h : load.Tracks stays r) {core : Core} (hc : core < load.cores)
    (now : Micros) :
    creditOn core (load.owed now) =
      (stays.map fun s => if s.core = core then s.lasting r now else 0).sum := by
  have hsum := h.sum_running fun e => if e.2.1 = core then now - e.2.2 else 0
  simp only [Stay.slot?_lasting _ hc] at hsum
  rw [← hsum, creditOn, owed, List.map_map]
  rfl

/-- What a thread that leaves is owed. -/
theorem Tracks.creditOn_leave (h : load.Tracks stays r) {core : Core} (hc : core < load.cores)
    (tid : ThreadId) (now : Micros) :
    creditOn core (load.credits (.leave tid now)) =
      (stays.map fun s =>
        if s.core = core then (if s.thread = tid then s.lasting r now else 0) else 0).sum := by
  let f : ThreadId × Core × Micros → Nat := fun e =>
    if e.1 = tid then (if e.2.1 = core then now - e.2.2 else 0) else 0
  have hone : (load.running.map f).sum = creditOn core (load.credits (.leave tid now)) := by
    have hother : ∀ entry ∈ load.running, entry.1 ≠ tid → f entry = 0 :=
      fun entry _ hne => if_neg hne
    rw [Table.sum_map_key h.ordered f hother]
    cases hf : load.running.find? tid with
    | none => simp [credits, creditOn, hf]
    | some found => simp [credits, creditOn, hf, f, Micros.since]
  rw [← hone, h.sum_running f]
  congr 1
  apply List.map_congr_left
  intro s _
  have hl := s.slot?_lasting hc r now
  cases he : s.slot? load.cores r with
  | none =>
    rw [he] at hl
    by_cases ht : s.thread = tid
    · simp [ht, ← hl]
    · simp [ht]
  | some entry =>
    have hfirst : entry.1 = s.thread := Stay.slot?_thread he
    rw [he] at hl
    by_cases ht : s.thread = tid
    · simp [f, hfirst, ht, ← hl]
    · simp [f, hfirst, ht]

theorem Tracks.leave (h : load.Tracks stays r) (tid : ThreadId) (now : Micros) :
    (load.leave tid now).Tracks (stays.map (Stay.leave tid now)) r := by
  rw [leave_eq load tid now h.ordered]
  refine ⟨h.ordered.filter _, ?_, ?_⟩
  · have hcores : (load.addAll (load.credits (.leave tid now))).cores = load.cores :=
      load.addAll_cores _
    have hfilter := h.running.filter fun entry => entry.1 ≠ tid
    rw [List.filter_filterMap] at hfilter
    rw [List.filterMap_map]
    change (load.running.filter _).Perm (stays.filterMap fun s =>
      (s.leave tid now).slot? (load.addAll (load.credits (.leave tid now))).cores r)
    simp only [hcores, Stay.slot?_leave]
    exact hfilter
  · intro core hc
    have hcore : core < load.cores := by
      rw [← load.addAll_cores (load.credits (.leave tid now))]
      exact hc
    have hsum : Stay.spentOn core r (stays.map (Stay.leave tid now)) =
        Stay.spentOn core r stays + creditOn core (load.credits (.leave tid now)) := by
      rw [h.creditOn_leave hcore, Stay.spentOn, Stay.spentOn, List.map_map, ← List.sum_map_add]
      congr 1
      apply List.map_congr_left
      intro s _
      by_cases hs : s.core = core
      · simp [hs, Stay.spent_leave]
      · simp [hs]
    rw [hsum]
    have hbusy := addAll_busy (load.credits (.leave tid now)) (h.busy core hcore)
    rw [addAll_eq]
    exact hbusy

theorem Tracks.enter (h : load.Tracks stays r) {tid : ThreadId} (core : Core) (hr : r ≤ now)
    (hnew : load.running.find? tid = none) :
    (load.enter tid core now).Tracks (stays ++ [⟨tid, core, now, none⟩]) r := by
  have habsent := (Table.find?_eq_none_iff h.ordered).mp hnew
  have hspent (c : Core) :
      Stay.spentOn c r (stays ++ [⟨tid, core, now, none⟩]) = Stay.spentOn c r stays := by
    simp [Stay.spentOn, Stay.spent]
  unfold Load.enter
  split_ifs with hc
  · refine ⟨Table.ordered_insert tid _ h.ordered, ?_, fun c hlt => ?_⟩
    · have hentry : Stay.slot? load.cores r ⟨tid, core, now, none⟩ = some (tid, core, now) := by
        simp [Stay.slot?, hc, Nat.max_eq_left hr]
      have hperm := Table.insert_perm (core, now) habsent
      rw [List.filterMap_append]
      change (load.running.insert tid (core, now)).Perm
        (_ ++ [_].filterMap (Stay.slot? load.cores r))
      rw [List.filterMap_cons_some hentry]
      refine hperm.trans ((h.running.cons _).trans ?_)
      change ([(tid, core, now)] ++ _).Perm (_ ++ [(tid, core, now)])
      exact List.perm_append_comm
    · rw [hspent]
      exact h.busy c hlt
  · refine ⟨h.ordered, ?_, fun c hlt => ?_⟩
    · have hentry : Stay.slot? load.cores r ⟨tid, core, now, none⟩ = none := by
        simp [Stay.slot?, hc]
      rw [List.filterMap_append, List.filterMap_cons_none hentry]
      simpa using h.running
    · rw [hspent]
      exact h.busy c hlt

theorem Tracks.busy_owed (h : load.Tracks stays r)
    (hstop : ∀ s ∈ stays, ∀ stop ∈ s.stop, stop ≤ now) {core : Core} (hc : core < load.cores) :
    (load.addAll (load.owed now)).busy[core]? =
      some (min (Stay.onCore core r now stays) load.period) := by
  have hsum : Stay.onCore core r now stays =
      Stay.spentOn core r stays + creditOn core (load.owed now) := by
    rw [h.creditOn_owed hc, Stay.onCore_eq, Stay.spentOn, ← List.sum_map_add]
    congr 1
    apply List.map_congr_left
    intro s hs
    by_cases hk : s.core = core
    · simp [hk, s.overlap_eq r (hstop s hs)]
    · simp [hk]
  rw [hsum]
  exact addAll_busy _ (h.busy core hc)

/-- A window that closes starts the count anew for every stay. -/
theorem Tracks.restart (h : load.Tracks stays r) (ending : Option Micros)
    (hle : ∀ s ∈ stays, s.start ≤ now ∧ ∀ stop ∈ s.stop, stop ≤ now) :
    ({ load.settle now with
        busy := (load.settle now).busy.map fun _ => 0
        windowEnd := ending } : Load).Tracks stays now := by
  have hcores : (load.settle now).busy.length = load.cores := by
    rw [settle_eq]
    exact load.addAll_cores _
  rw [settle_eq] at *
  refine ⟨Table.ordered_map (fun _ entry => (entry.1, now)) h.ordered, ?_, fun core hc => ?_⟩
  · have hperm := h.running.map fun entry => (entry.1, entry.2.1, now)
    rw [List.map_filterMap] at hperm
    have hentry : ∀ s ∈ stays,
        ((s.slot? load.cores r).map fun entry => (entry.1, entry.2.1, now)) =
          s.slot? load.cores now := by
      intro s hs
      unfold Stay.slot?
      split_ifs
      · simp [Nat.max_eq_right (hle s hs).1]
      · rfl
    rw [List.filterMap_congr hentry] at hperm
    simp only [Load.cores, List.length_map, hcores]
    exact hperm
  · have hzero : Stay.spentOn core now stays = 0 := by
      apply List.sum_eq_zero
      intro n hn
      obtain ⟨s, hs, rfl⟩ := List.mem_map.mp hn
      unfold Stay.spent
      cases hstop : s.stop with
      | none => simp
      | some stop =>
        have hbound := (hle s hs).2 stop hstop
        have hnone : stop - max s.start now = 0 :=
          Nat.sub_eq_zero_of_le (hbound.trans (Nat.le_max_right _ _))
        simp [hnone]
    rw [hzero]
    have hlt : core < (load.addAll (load.owed now)).busy.length := by
      simpa [Load.cores] using hc
    simp [hlt]

/-- The start of a window that may have closed. -/
def restarted (window : Option Window) (r now : Micros) : Micros :=
  window.elim r fun _ => now

theorem Tracks.closeWindow (h : load.Tracks stays r)
    (hle : ∀ s ∈ stays, s.start ≤ now ∧ ∀ stop ∈ s.stop, stop ≤ now) :
    (load.closeWindow now).1.Tracks stays (restarted (load.closeWindow now).2 r now) ∧
      ∀ w ∈ (load.closeWindow now).2, w.period = load.period ∧ w.busy.length = load.cores ∧
        ∀ core < load.cores,
          w.busy[core]? = some (min (Stay.onCore core r now stays) load.period) := by
  unfold Load.closeWindow
  cases hw : load.windowEnd with
  | none => exact ⟨h, fun w hm => by simp at hm⟩
  | some ending =>
    by_cases hnow : now < ending
    · simp only [if_pos hnow]
      exact ⟨h, fun w hm => by simp at hm⟩
    · simp only [if_neg hnow]
      refine ⟨h.restart _ hle, ?_⟩
      intro w hm
      obtain rfl := Option.some.inj hm
      rw [settle_eq]
      refine ⟨rfl, load.addAll_cores _, fun core hc => ?_⟩
      exact h.busy_owed (fun s hs => (hle s hs).2) hc

end

end Load
end TraceReport
