import TraceReport.Proofs.Load.Overlap
import TraceReport.Proofs.Load.Range

namespace TraceReport

namespace Load

/-- The load at the point of a turn where a thread enters. -/
def vacated (load : Load) (turn : Turn) : Load :=
  let opened := load.openWindow turn.time
  turn.leaving.elim opened fun tid => opened.leave tid turn.time

def take (load : Load) (turn : Turn) : Load × Option Window :=
  let entered := turn.entering.elim (load.vacated turn) fun tid =>
    (load.vacated turn).enter tid turn.core turn.time
  entered.closeWindow turn.time

def after (load : Load) (turns : List Turn) : Load :=
  turns.foldl (fun load turn => (load.take turn).1) load

/-- The thread that enters, if any, is not held as running. -/
def Admits (load : Load) (turn : Turn) : Prop :=
  ∀ tid ∈ turn.entering, (load.vacated turn).running.find? tid = none

/-- At no turn a thread enters that is held as running. -/
def AdmitsAll (load : Load) : List Turn → Prop
  | [] => True
  | turn :: rest => load.Admits turn ∧ (load.take turn).1.AdmitsAll rest

instance (load : Load) (turn : Turn) : Decidable (load.Admits turn) :=
  inferInstanceAs (Decidable (∀ tid ∈ turn.entering, _))

instance decidableAdmitsAll : (load : Load) → (turns : List Turn) → Decidable (load.AdmitsAll turns)
  | _, [] => isTrue trivial
  | load, turn :: rest =>
    have := decidableAdmitsAll (load.take turn).1 rest
    inferInstanceAs (Decidable (load.Admits turn ∧ _))

/-- The times of the turns that closed a window. -/
def closings (load : Load) : List Turn → List Micros
  | [] => []
  | turn :: rest =>
    ((load.take turn).2.map fun _ => turn.time).toList ++ (load.take turn).1.closings rest

/-- Since when the window that is open at the last turn has counted: since the turn that closed the
one before, or since the very first turn. -/
def openedAt (load : Load) (past : List Turn) (last : Turn) : Micros :=
  (load.closings past).getLast?.getD ((past ++ [last]).head (by simp)).time

theorem after_append (load : Load) (past : List Turn) (turn : Turn) :
    load.after (past ++ [turn]) = ((load.after past).take turn).1 := by
  rw [after, List.foldl_append]
  rfl

theorem admitsAll_append (load : Load) (past : List Turn) (turn : Turn) :
    load.AdmitsAll (past ++ [turn]) ↔ load.AdmitsAll past ∧ (load.after past).Admits turn := by
  induction past generalizing load with
  | nil => simp [AdmitsAll, after]
  | cons first rest ih =>
    rw [List.cons_append, AdmitsAll, ih, AdmitsAll, and_assoc]
    rfl

theorem closings_append (load : Load) (past : List Turn) (turn : Turn) :
    load.closings (past ++ [turn]) =
      load.closings past ++ (((load.after past).take turn).2.map fun _ => turn.time).toList := by
  induction past generalizing load with
  | nil => simp [closings, after]
  | cons first rest ih =>
    rw [List.cons_append, closings, ih, closings, List.append_assoc]
    rfl

theorem closings_subset (load : Load) (turns : List Turn) :
    load.closings turns ⊆ turns.map Turn.time := by
  induction turns generalizing load with
  | nil => exact List.Subset.refl _
  | cons turn rest ih =>
    intro time hm
    rcases List.mem_append.mp hm with hnew | hold
    · obtain ⟨w, -, rfl⟩ := Option.map_eq_some_iff.mp (Option.mem_toList.mp hnew)
      exact List.mem_cons_self
    · exact List.mem_cons_of_mem _ (ih _ hold)

theorem openedAt_append (load : Load) (past : List Turn) (turn last : Turn) :
    load.openedAt (past ++ [turn]) last =
      restarted ((load.after past).take turn).2 (load.openedAt past turn) turn.time := by
  unfold openedAt restarted
  rw [closings_append]
  cases hw : ((load.after past).take turn).2 with
  | some w => simp
  | none => simp [List.head_append]

theorem openedAt_le {past : List Turn} {last : Turn} (load : Load)
    (h : ∀ turn ∈ past, turn.time ≤ last.time) : load.openedAt past last ≤ last.time := by
  unfold openedAt
  cases hc : (load.closings past).getLast? with
  | some time =>
    have hm := load.closings_subset past (List.mem_of_getLast? hc)
    obtain ⟨turn, ht, rfl⟩ := List.mem_map.mp hm
    exact h turn ht
  | none =>
    cases past with
    | nil => exact Nat.le_refl _
    | cons first rest => exact h first List.mem_cons_self

theorem Tracks.vacated {load : Load} {stays : List Stay} {r : Micros} (h : load.Tracks stays r)
    (turn : Turn) :
    (load.vacated turn).Tracks
      (turn.leaving.elim stays fun tid => stays.map (Stay.leave tid turn.time)) r := by
  unfold Load.vacated
  cases turn.leaving with
  | none => exact h.openWindow turn.time
  | some tid => exact (h.openWindow turn.time).leave tid turn.time

section

variable {load : Load} {cores period : Nat}

theorem Bounded.vacated (h : load.Bounded cores period) (turn : Turn) :
    (load.vacated turn).Bounded cores period := by
  unfold Load.vacated
  cases turn.leaving with
  | none => exact h.openWindow turn.time
  | some tid => exact (h.openWindow turn.time).leave tid turn.time

theorem Bounded.take (h : load.Bounded cores period) (turn : Turn) :
    (load.take turn).1.Bounded cores period ∧
      ∀ w ∈ (load.take turn).2, w.Bounded cores period := by
  unfold Load.take
  cases turn.entering with
  | none => exact (h.vacated turn).closeWindow turn.time
  | some tid => exact ((h.vacated turn).enter tid turn.core turn.time).closeWindow turn.time

theorem Bounded.after (h : load.Bounded cores period) (turns : List Turn) :
    (load.after turns).Bounded cores period := by
  induction turns generalizing load with
  | nil => exact h
  | cons turn rest ih => exact ih (h.take turn).1

theorem Tracks.take {stays : List Stay} {r : Micros} {turn : Turn} (h : load.Tracks stays r)
    (hb : load.Bounded cores period) (hr : r ≤ turn.time) (hnew : load.Admits turn)
    (hle : ∀ s ∈ turn.applyTo stays, s.start ≤ turn.time ∧ ∀ stop ∈ s.stop, stop ≤ turn.time) :
    (load.take turn).1.Tracks (turn.applyTo stays) (restarted (load.take turn).2 r turn.time) ∧
      ∀ w ∈ (load.take turn).2, ∀ core < cores,
        w.busy[core]? = some (min (Stay.onCore core r turn.time (turn.applyTo stays)) period) := by
  have hv := h.vacated turn
  have hvb := hb.vacated turn
  unfold Turn.applyTo at hle ⊢
  unfold Load.take
  cases he : turn.entering with
  | none =>
    simp only [he, Option.map_none, Option.toList_none, List.append_nil] at hle ⊢
    have hclose := hv.closeWindow hle
    refine ⟨hclose.1, fun w hw core hc => ?_⟩
    have hbusy := (hclose.2 w hw).2.2 core (hvb.cores_eq ▸ hc)
    rwa [hvb.period_eq] at hbusy
  | some tid =>
    simp only [he, Option.map_some, Option.toList_some] at hle ⊢
    have henter := hv.enter turn.core hr (hnew tid he)
    have heb := hvb.enter tid turn.core turn.time
    have hclose := henter.closeWindow hle
    refine ⟨hclose.1, fun w hw core hc => ?_⟩
    have hbusy := (hclose.2 w hw).2.2 core (heb.cores_eq ▸ hc)
    rwa [heb.period_eq] at hbusy

end

/-- Turns in the order of their times, at none of which a thread enters that is held as running. -/
structure Regular (load : Load) (turns : List Turn) : Prop where
  sorted : turns.Pairwise fun earlier later => earlier.time ≤ later.time
  admits : load.AdmitsAll turns

instance (load : Load) (turns : List Turn) : Decidable (load.Regular turns) :=
  decidable_of_iff (turns.Pairwise (fun earlier later => earlier.time ≤ later.time) ∧
    load.AdmitsAll turns) ⟨fun h => ⟨h.1, h.2⟩, fun h => ⟨h.sorted, h.admits⟩⟩

section

variable {load : Load} {past : List Turn} {last : Turn}

theorem Regular.init (h : load.Regular (past ++ [last])) : load.Regular past where
  sorted := (List.pairwise_append.mp h.sorted).1
  admits := ((load.admitsAll_append past last).mp h.admits).1

theorem Regular.admits_last (h : load.Regular (past ++ [last])) : (load.after past).Admits last :=
  ((load.admitsAll_append past last).mp h.admits).2

theorem Regular.le_last (h : load.Regular (past ++ [last])) :
    ∀ turn ∈ past, turn.time ≤ last.time :=
  fun turn hm => (List.pairwise_append.mp h.sorted).2.2 turn hm last List.mem_cons_self

theorem Regular.stays_le (h : load.Regular (past ++ [last])) :
    ∀ s ∈ last.applyTo (Turn.stays past),
      s.start ≤ last.time ∧ ∀ stop ∈ s.stop, stop ≤ last.time := by
  rw [← Turn.stays_append]
  apply Turn.stays_le
  intro turn hm
  rcases List.mem_append.mp hm with hold | hlast
  · exact h.le_last turn hold
  · exact (List.mem_singleton.mp hlast) ▸ Nat.le_refl _

end

/-- After regular turns the load agrees with all stays so far. -/
theorem tracks_after {load : Load} {cores period : Nat} (h : ∀ r, load.Tracks [] r)
    (hb : load.Bounded cores period) (past : List Turn) (last : Turn)
    (hreg : load.Regular (past ++ [last])) :
    (load.after past).Tracks (Turn.stays past) (load.openedAt past last) := by
  induction past using List.reverseRecOn generalizing last with
  | nil => exact h _
  | append_singleton before turn ih =>
    have hprev := hreg.init
    have hstep := (ih turn hprev).take (hb.after before) (load.openedAt_le hprev.le_last)
      hprev.admits_last hprev.stays_le
    rw [after_append, Turn.stays_append, openedAt_append]
    exact hstep.1

/-- A window that a turn closes has, for each core, the overlap of the window with all stays. -/
theorem take_busy {load : Load} {cores period : Nat} (h : ∀ r, load.Tracks [] r)
    (hb : load.Bounded cores period) (past : List Turn) (turn : Turn)
    (hreg : load.Regular (past ++ [turn])) :
    ∀ w ∈ ((load.after past).take turn).2, ∀ core < cores,
      w.busy[core]? = some (min (Stay.onCore core (load.openedAt past turn) turn.time
        (Turn.stays (past ++ [turn]))) period) := by
  have hstep := (tracks_after h hb past turn hreg).take (hb.after past)
    (load.openedAt_le hreg.le_last) hreg.admits_last hreg.stays_le
  rw [Turn.stays_append]
  exact hstep.2

end Load
end TraceReport
