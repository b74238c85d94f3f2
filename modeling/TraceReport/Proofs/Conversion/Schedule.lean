import Mathlib.Data.List.Basic
import TraceReport.Proofs.Conversion.CoreTime
import TraceReport.Proofs.Conversion.Intake
import TraceReport.Proofs.Conversion.Naming
import TraceReport.Proofs.Load.Occupancy

namespace TraceReport

/-- A task that can be on a core. -/
structure Task where
  name : Text
  tid : ThreadId
  deriving DecidableEq, Repr

namespace Task

/-- Idle tasks are told by their names. -/
def IsIdle (t : Task) : Prop := "swapper".toList <+: t.name

instance (t : Task) : Decidable t.IsIdle :=
  inferInstanceAs (Decidable ("swapper".toList <+: t.name))

/-- The thread that is on a core with a task. -/
def thread? (t : Task) : Option ThreadId := if t.IsIdle then none else some t.tid

theorem thread?_eq_some_iff {t : Task} {tid : ThreadId} :
    t.thread? = some tid ↔ ¬t.IsIdle ∧ t.tid = tid := by
  unfold thread?
  split_ifs with h
  · simp [h]
  · simp [h]

end Task

theorem idleThread?_eq_none_iff (t : Task) : idleThread? t.name = none ↔ ¬t.IsIdle := by
  have hidle : (idleThread? t.name).isSome = true ↔ t.IsIdle := isSome_idleThread?_iff
  rw [← hidle, Option.not_isSome_iff_eq_none]

namespace Switch

section

variable {s : Switch} {next : Task}

/-- The task a switch takes off its core. -/
def previous (s : Switch) : Task := ⟨s.header.process, s.header.tid⟩

/-- A switch puts this task on its core. A thread id that cannot be read is any task's. -/
structure LeadsTo (s : Switch) (next : Task) : Prop where
  name : next.name = s.nextName
  tid : ∀ tid, s.nextThread = .ok tid → next.tid = tid

theorem outgoing?_eq (s : Switch) : s.outgoing? = s.previous.thread? := by
  have hidle := idleThread?_eq_none_iff s.previous
  unfold outgoing? Task.thread?
  cases hi : idleThread? s.header.process with
  | none => exact (if_neg (hidle.mp hi)).symm
  | some idle =>
    have hname : idleThread? s.previous.name ≠ none := by
      rw [previous, hi]
      exact Option.some_ne_none idle
    exact (if_pos (not_not.mp (mt hidle.mpr hname))).symm

theorem LeadsTo.incoming_eq (h : s.LeadsTo next) {entering : Option ThreadId}
    (hok : s.incoming = .ok entering) : entering = next.thread? := by
  have hidle := idleThread?_eq_none_iff next
  rw [h.name] at hidle
  unfold incoming at hok
  unfold Task.thread?
  cases hi : idleThread? s.nextName with
  | none =>
    rw [hi] at hok
    obtain ⟨tid, htid, hsome⟩ := map_eq_ok_iff.mp hok
    rw [if_neg (hidle.mp hi), h.tid tid htid]
    exact hsome.symm
  | some idle =>
    have hname : idleThread? s.nextName ≠ none := by simp [hi]
    rw [hi] at hok
    rw [if_pos (not_not.mp (mt hidle.mpr hname))]
    exact (Except.ok.inj hok).symm

theorem LeadsTo.entering_eq (h : s.LeadsTo next) (hread : s.incoming.isOk) :
    s.turn.entering = next.thread? := by
  obtain ⟨entering, hok⟩ := exists_ok_of_isOk hread
  rw [← h.incoming_eq hok]
  simp [turn, hok, Except.toOption]

/-- Who enters is the task the switch leads to; nobody does when its thread id cannot be read. -/
theorem LeadsTo.thread?_eq (h : s.LeadsTo next) {tid : ThreadId}
    (he : s.turn.entering = some tid) : next.thread? = some tid := by
  have hread : s.incoming.isOk := by
    cases hi : s.incoming with
    | error fault => simp [turn, hi, Except.toOption] at he
    | ok entering => rfl
  rw [← h.entering_eq hread]
  exact he

end

end Switch

/-- Each switch takes the current task off its core and makes a task current that is idle or on no
other core. -/
def Follows (tasks : Set Task) (current : Core → Task) : List Switch → Prop
  | [] => True
  | s :: rest =>
    current s.header.core = s.previous ∧
      ∃ next ∈ tasks, s.LeadsTo next ∧
        (next.IsIdle ∨ ∀ core, core ≠ s.header.core → current core ≠ next) ∧
        Follows tasks (Function.update current s.header.core next) rest

/-- Switches of a machine that runs some tasks, from the time when `current` is on its cores. -/
structure Schedule (tasks : Set Task) (current : Core → Task) (switches : List Switch) : Prop where
  /-- tasks that are not idle have threads of their own -/
  distinct : ∀ a ∈ tasks, ∀ b ∈ tasks, ¬a.IsIdle → ¬b.IsIdle → a.tid = b.tid → a = b
  known : ∀ core, current core ∈ tasks
  /-- a task that is not idle is on one core only -/
  apart : ∀ a b, current a = current b → ¬(current a).IsIdle → a = b
  follows : Follows tasks current switches

/-- The threads on the cores. -/
def Occupancy.ofTasks (current : Core → Task) : Occupancy := fun core => (current core).thread?

theorem Occupancy.ofTasks_holds_iff {current : Core → Task} {tid : ThreadId} :
    (ofTasks current).Holds tid ↔ ∃ core, ¬(current core).IsIdle ∧ (current core).tid = tid := by
  unfold Holds ofTasks
  simp only [Task.thread?_eq_some_iff]

namespace Schedule

section

variable {tasks : Set Task} {current : Core → Task} {s : Switch} {switches : List Switch}

theorem of_prefix (h : Schedule tasks current switches) {first : List Switch}
    (hp : first <+: switches) : Schedule tasks current first := by
  refine ⟨h.distinct, h.known, h.apart, ?_⟩
  have hfollows := h.follows
  clear h
  induction first generalizing current switches with
  | nil => trivial
  | cons s rest ih =>
    obtain ⟨more, rfl⟩ := hp
    obtain ⟨hprevious, next, hnext, hleads, helse, hlater⟩ := hfollows
    exact ⟨hprevious, next, hnext, hleads, helse, ih (List.prefix_append rest more) hlater⟩

theorem occupancy_apart (h : Schedule tasks current switches) :
    (Occupancy.ofTasks current).Apart := by
  intro a b tid ha hb
  obtain ⟨hbusy, htid⟩ := Task.thread?_eq_some_iff.mp ha
  obtain ⟨hbusy', htid'⟩ := Task.thread?_eq_some_iff.mp hb
  have hsame : current a = current b :=
    h.distinct _ (h.known a) _ (h.known b) hbusy hbusy' (htid.trans htid'.symm)
  exact h.apart a b hsame hbusy

/-- What a switch tells of threads is allowed, and the schedule goes on after it. -/
theorem step (h : Schedule tasks current (s :: switches)) :
    (Occupancy.ofTasks current).Allows s.turn ∧
      (s.incoming.isOk → ∃ later, Schedule tasks later switches ∧
        Occupancy.ofTasks later = (Occupancy.ofTasks current).turned s.turn) := by
  obtain ⟨hprevious, next, hnext, hleads, helse, hlater⟩ := h.follows
  have hfree (tid : ThreadId) (ht : next.thread? = some tid) (core : Core)
      (hne : core ≠ s.header.core) : (current core).thread? ≠ some tid := by
    intro hcore
    obtain ⟨hbusy, htid⟩ := Task.thread?_eq_some_iff.mp ht
    obtain ⟨hbusy', htid'⟩ := Task.thread?_eq_some_iff.mp hcore
    rcases helse with hidle | hother
    · exact hbusy hidle
    · apply hother core hne
      exact h.distinct _ (h.known core) _ hnext hbusy' hbusy (htid'.trans htid.symm)
  constructor
  · constructor
    · show s.outgoing? = (current s.header.core).thread?
      rw [hprevious, s.outgoing?_eq]
    · intro tid he core hne
      exact hfree tid (hleads.thread?_eq he) core hne
  · intro hread
    refine ⟨Function.update current s.header.core next, ⟨h.distinct, ?_, ?_, hlater⟩, ?_⟩
    · intro core
      by_cases hc : core = s.header.core
      · rw [hc, Function.update_self]
        exact hnext
      · rw [Function.update_of_ne hc]
        exact h.known core
    · intro a b hsame hbusy
      by_cases ha : a = s.header.core
      · by_cases hb : b = s.header.core
        · exact ha.trans hb.symm
        · rw [ha, Function.update_self] at hbusy hsame
          rw [Function.update_of_ne hb] at hsame
          rcases helse with hidle | hother
          · exact absurd hidle hbusy
          · exact absurd hsame.symm (hother b hb)
      · rw [Function.update_of_ne ha] at hbusy hsame
        by_cases hb : b = s.header.core
        · rw [hb, Function.update_self] at hsame
          rcases helse with hidle | hother
          · exact absurd (hsame ▸ hidle) hbusy
          · exact absurd hsame (hother a ha)
        · rw [Function.update_of_ne hb] at hsame
          exact h.apart a b hsame hbusy
    · funext core
      by_cases hc : core = s.header.core
      · show (Function.update current s.header.core next core).thread? = _
        rw [hc, Function.update_self, ← hleads.entering_eq hread]
        exact ((Occupancy.ofTasks current).turned_self s.turn).symm
      · show (Function.update current s.header.core next core).thread? = _
        rw [Function.update_of_ne hc]
        exact ((Occupancy.ofTasks current).turned_of_ne s.turn hc).symm

/-- All turns of a schedule are allowed, as long as its switches are read through. -/
theorem allowsAll (h : Schedule tasks current switches)
    (hread : ∀ s ∈ switches.dropLast, s.incoming.isOk) :
    (Occupancy.ofTasks current).AllowsAll (switches.map Switch.turn) := by
  induction switches generalizing current with
  | nil => trivial
  | cons s rest ih =>
    obtain ⟨hturn, hlater⟩ := h.step
    refine ⟨hturn, ?_⟩
    cases rest with
    | nil => trivial
    | cons second more =>
      rw [List.dropLast_cons_cons] at hread
      obtain ⟨later, hschedule, hthreads⟩ := hlater (hread s List.mem_cons_self)
      rw [← hthreads]
      exact ih hschedule fun s' hs => hread s' (List.mem_cons_of_mem s hs)

/-- The tasks that switches name are tasks of the machine. -/
theorem tasks_mem (h : Schedule tasks current switches) (hs : s ∈ switches) :
    s.previous ∈ tasks ∧ ∃ next ∈ tasks, s.LeadsTo next := by
  have hknown := h.known
  have hfollows := h.follows
  clear h
  induction switches generalizing current with
  | nil => simp at hs
  | cons first rest ih =>
    obtain ⟨hprevious, next, hnext, hleads, -, hlater⟩ := hfollows
    rcases List.mem_cons.mp hs with rfl | hrest
    · exact ⟨hprevious ▸ hknown s.header.core, next, hnext, hleads⟩
    · refine ih hrest (fun core => ?_) hlater
      by_cases hc : core = first.header.core
      · rw [hc, Function.update_self]
        exact hnext
      · rw [Function.update_of_ne hc]
        exact hknown core

end

end Schedule
end TraceReport
