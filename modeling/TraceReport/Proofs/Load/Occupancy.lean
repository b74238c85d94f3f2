import Mathlib.Logic.Function.Basic
import TraceReport.Event
import TraceReport.Proofs.Load.Busy

namespace TraceReport

/-- The phase that follows: what begins ends next, and what has ended begins. -/
def Phase.next : Phase → Phase
  | .begin => .finish
  | _ => .begin

/-- Each phase is the one that follows the phase before; the first is the one that is due. -/
def Phase.InTurn (due : Phase) : List Phase → Prop
  | [] => True
  | phase :: rest => phase = due ∧ InTurn due.next rest

/-- The ends and begins of a thread that a turn tells of. -/
def Turn.phases (tid : ThreadId) (turn : Turn) : List Phase :=
  (if turn.leaving = some tid then [.finish] else []) ++
    if turn.entering = some tid then [.begin] else []

/-- The thread on each core, none where the core is idle. -/
abbrev Occupancy := Core → Option ThreadId

namespace Occupancy

/-- The thread is on some core. -/
def Holds (o : Occupancy) (tid : ThreadId) : Prop := ∃ core, o core = some tid

/-- No thread is on two cores. -/
def Apart (o : Occupancy) : Prop := ∀ a b tid, o a = some tid → o b = some tid → a = b

/-- The threads after a turn. -/
def turned (o : Occupancy) (turn : Turn) : Occupancy := Function.update o turn.core turn.entering

/-- The thread on the core leaves it, and the one that enters is on no other core. -/
structure Allows (o : Occupancy) (turn : Turn) : Prop where
  leaving : turn.leaving = o turn.core
  entering : ∀ tid ∈ turn.entering, ∀ core, core ≠ turn.core → o core ≠ some tid

/-- Every turn is allowed where the turns before it lead. -/
def AllowsAll (o : Occupancy) : List Turn → Prop
  | [] => True
  | turn :: rest => o.Allows turn ∧ (o.turned turn).AllowsAll rest

section

variable {o : Occupancy} {turn : Turn}

theorem turned_self (o : Occupancy) (turn : Turn) : o.turned turn turn.core = turn.entering := by
  unfold turned
  exact Function.update_self ..

theorem turned_of_ne (o : Occupancy) (turn : Turn) {core : Core} (h : core ≠ turn.core) :
    o.turned turn core = o core := by
  unfold turned
  exact Function.update_of_ne h ..

/-- A thread that enters a core was on no core but this one. -/
theorem Allows.leaving_of_holds (h : o.Allows turn) {tid : ThreadId}
    (he : turn.entering = some tid) (ho : o.Holds tid) : turn.leaving = some tid := by
  obtain ⟨core, hcore⟩ := ho
  have hsame : core = turn.core := by
    by_contra hne
    exact h.entering tid he core hne hcore
  rw [h.leaving, ← hsame]
  exact hcore

theorem Allows.apart (h : o.Allows turn) (ha : o.Apart) : (o.turned turn).Apart := by
  intro a b tid hta htb
  by_cases hca : a = turn.core
  · by_cases hcb : b = turn.core
    · exact hca.trans hcb.symm
    · have hentering : turn.entering = some tid := by
        rw [← turned_self o turn, ← hca]
        exact hta
      rw [turned_of_ne o turn hcb] at htb
      exact absurd htb (h.entering tid hentering b hcb)
  · rw [turned_of_ne o turn hca] at hta
    by_cases hcb : b = turn.core
    · have hentering : turn.entering = some tid := by
        rw [← turned_self o turn, ← hcb]
        exact htb
      exact absurd hta (h.entering tid hentering a hca)
    · rw [turned_of_ne o turn hcb] at htb
      exact ha a b tid hta htb

/-- After a turn a thread is on a core if it has entered, or if it was there and has not left. -/
theorem Allows.holds_turned_iff (h : o.Allows turn) (ha : o.Apart) (tid : ThreadId) :
    (o.turned turn).Holds tid ↔
      turn.entering = some tid ∨ turn.leaving ≠ some tid ∧ o.Holds tid := by
  constructor
  · intro hturned
    obtain ⟨core, hcore⟩ := hturned
    by_cases hc : core = turn.core
    · rw [hc, turned_self] at hcore
      exact .inl hcore
    · rw [turned_of_ne o turn hc] at hcore
      refine .inr ⟨fun hl => ?_, core, hcore⟩
      rw [h.leaving] at hl
      exact hc (ha core turn.core tid hcore hl)
  · intro hor
    rcases hor with hentering | ⟨hstays, core, hcore⟩
    · exact ⟨turn.core, (turned_self o turn).trans hentering⟩
    · have hne : core ≠ turn.core := by
        intro hc
        apply hstays
        rw [h.leaving, ← hc]
        exact hcore
      exact ⟨core, (turned_of_ne o turn hne).trans hcore⟩

/-- A thread that is on a core at first ends before it begins; any other begins before it ends. -/
theorem inTurn_phases {turns : List Turn} (h : o.AllowsAll turns) (ha : o.Apart)
    (tid : ThreadId) :
    (o.Holds tid → Phase.InTurn .finish (turns.flatMap (Turn.phases tid))) ∧
      (¬o.Holds tid → Phase.InTurn .begin (turns.flatMap (Turn.phases tid))) := by
  induction turns generalizing o with
  | nil => exact ⟨fun _ => trivial, fun _ => trivial⟩
  | cons turn rest ih =>
    obtain ⟨hturn, hrest⟩ := h
    obtain ⟨hon, hoff⟩ := ih hrest (hturn.apart ha)
    rw [hturn.holds_turned_iff ha] at hon hoff
    rw [List.flatMap_cons, Turn.phases]
    by_cases hl : turn.leaving = some tid
    · have hheld : o.Holds tid := ⟨turn.core, hturn.leaving.symm.trans hl⟩
      refine ⟨fun _ => ?_, fun hno => absurd hheld hno⟩
      by_cases he : turn.entering = some tid
      · rw [if_pos hl, if_pos he]
        exact ⟨rfl, rfl, hon (.inl he)⟩
      · rw [if_pos hl, if_neg he]
        refine ⟨rfl, hoff fun hor => ?_⟩
        rcases hor with hentering | ⟨hstays, -⟩
        · exact he hentering
        · exact hstays hl
    · by_cases he : turn.entering = some tid
      · have hfree : ¬o.Holds tid := fun ho => hl (hturn.leaving_of_holds he ho)
        refine ⟨fun ho => absurd ho hfree, fun _ => ?_⟩
        rw [if_neg hl, if_pos he]
        exact ⟨rfl, hon (.inl he)⟩
      · rw [if_neg hl, if_neg he]
        refine ⟨fun ho => hon (.inr ⟨hl, ho⟩), fun hno => hoff fun hor => ?_⟩
        rcases hor with hentering | ⟨-, ho⟩
        · exact he hentering
        · exact hno ho

end

end Occupancy

namespace Load

/-- Every thread that is held as running is the one on its core. -/
def Placed (load : Load) (o : Occupancy) : Prop :=
  ∀ entry ∈ load.running, o entry.2.1 = some entry.1

section

variable {load : Load} {o : Occupancy} {turn : Turn} {cores period : Nat}

theorem mem_vacated (h : load.Bounded cores period) {entry : ThreadId × Core × Micros}
    (hm : entry ∈ (load.vacated turn).running) :
    entry ∈ load.running ∧ turn.leaving ≠ some entry.1 := by
  have hopened : (load.openWindow turn.time).running = load.running := by
    unfold openWindow
    cases load.windowEnd <;> rfl
  unfold vacated at hm
  cases hl : turn.leaving with
  | none =>
    simp only [hl, Option.elim_none, hopened] at hm
    exact ⟨hm, by simp⟩
  | some tid =>
    have ho := (h.openWindow turn.time).ordered
    simp only [hl, Option.elim_some, leave_eq _ _ _ ho, hopened, List.mem_filter] at hm
    refine ⟨hm.1, fun heq => ?_⟩
    have hne : entry.1 ≠ tid := by simpa using hm.2
    exact hne (Option.some.inj heq).symm

theorem mem_closeWindow {now : Micros} {entry : ThreadId × Core × Micros}
    (hm : entry ∈ (load.closeWindow now).1.running) :
    ∃ since, (entry.1, entry.2.1, since) ∈ load.running := by
  unfold closeWindow at hm
  cases hw : load.windowEnd with
  | none =>
    simp only [hw] at hm
    exact ⟨entry.2.2, hm⟩
  | some ending =>
    simp only [hw] at hm
    split_ifs at hm
    · exact ⟨entry.2.2, hm⟩
    · rw [settle_eq] at hm
      obtain ⟨old, ho, rfl⟩ := List.mem_map.mp hm
      exact ⟨old.2.2, ho⟩

theorem Placed.closeWindow (h : load.Placed o) (now : Micros) :
    (load.closeWindow now).1.Placed o := by
  intro entry hm
  obtain ⟨since, hold⟩ := mem_closeWindow hm
  exact h (entry.1, entry.2.1, since) hold

/-- Once the thread on a core has left, no thread is held as running there. -/
theorem Placed.ne_of_mem_vacated (h : load.Placed o) (hb : load.Bounded cores period)
    (hl : turn.leaving = o turn.core) {entry : ThreadId × Core × Micros}
    (hm : entry ∈ (load.vacated turn).running) :
    entry.2.1 ≠ turn.core ∧ o entry.2.1 = some entry.1 := by
  obtain ⟨hold, hne⟩ := mem_vacated hb hm
  have hcore := h entry hold
  refine ⟨fun hc => hne ?_, hcore⟩
  rw [hl, ← hc]
  exact hcore

theorem Placed.vacated (h : load.Placed o) (hb : load.Bounded cores period)
    (hl : turn.leaving = o turn.core) : (load.vacated turn).Placed (o.turned turn) := by
  intro entry hm
  obtain ⟨hne, hcore⟩ := h.ne_of_mem_vacated hb hl hm
  exact (o.turned_of_ne turn hne).trans hcore

theorem Placed.take (h : load.Placed o) (hb : load.Bounded cores period)
    (hl : turn.leaving = o turn.core) : (load.take turn).1.Placed (o.turned turn) := by
  have hvacated := h.vacated hb hl
  unfold Load.take
  cases he : turn.entering with
  | none => exact hvacated.closeWindow turn.time
  | some tid =>
    apply Placed.closeWindow
    intro entry hm
    simp only [Option.elim_some, enter] at hm
    split_ifs at hm
    · rcases Table.mem_insert hm with hnew | hold
      · rw [hnew]
        exact (o.turned_self turn).trans he
      · exact hvacated entry hold
    · exact hvacated entry hm

/-- No two threads are held as running on one core. -/
theorem Placed.cores_nodup (h : load.Placed o) (hb : load.Bounded cores period) :
    (load.running.map fun entry => entry.2.1).Nodup := by
  have hkeys : (load.running.map Prod.fst).Nodup := by
    rw [List.Nodup, List.pairwise_map]
    exact hb.ordered.imp fun hlt => Int.ne_of_lt hlt
  have hthreads : (load.running.map fun entry => entry.2.1).map o =
      (load.running.map Prod.fst).map some := by
    rw [List.map_map, List.map_map]
    exact List.map_congr_left h
  apply List.Nodup.of_map o
  rw [hthreads]
  exact hkeys.map (Option.some_injective ThreadId)

end

end Load
end TraceReport
