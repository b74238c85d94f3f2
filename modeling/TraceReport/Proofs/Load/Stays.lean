import TraceReport.Proofs.Load.Calls

namespace TraceReport

/-- What a switch tells about a core: the thread that leaves it and the thread that enters it, none
where the core was or goes idle. -/
structure Turn where
  time : Micros
  core : Core
  leaving : Option ThreadId
  entering : Option ThreadId
  deriving DecidableEq, Repr

/-- The time a thread is on a core, without an end while it still runs. -/
structure Stay where
  thread : ThreadId
  core : Core
  start : Micros
  stop : Option Micros
  deriving DecidableEq, Repr

namespace Turn

/-- When a thread leaves its core next. -/
def leftAt? (tid : ThreadId) : List Turn → Option Micros
  | [] => none
  | turn :: rest => if turn.leaving = some tid then some turn.time else leftAt? tid rest

/-- Every thread stays from the turn at which it enters until the next one at which it leaves. -/
def stays : List Turn → List Stay
  | [] => []
  | turn :: rest =>
    (turn.entering.map fun tid => ⟨tid, turn.core, turn.time, leftAt? tid rest⟩).toList ++
      stays rest

end Turn

namespace Stay

/-- How much of the stay lies between two times. -/
def overlap (s : Stay) (r t : Micros) : Nat := min (s.stop.getD t) t - max s.start r

/-- The time that threads were on a core between two times, all stays together. -/
def onCore (core : Core) (r t : Micros) (stays : List Stay) : Nat :=
  ((stays.filter fun s => s.core = core).map fun s => s.overlap r t).sum

/-- Ends the stay if it is one of the thread and still lasts. -/
def leave (tid : ThreadId) (now : Micros) (s : Stay) : Stay :=
  if s.stop = none ∧ s.thread = tid then { s with stop := some now } else s

/-- The length since `r`, once the stay has ended. -/
def spent (r : Micros) (s : Stay) : Nat :=
  match s.stop with
  | some stop => stop - max s.start r
  | none => 0

/-- The length since `r` up to `t` while the stay lasts. -/
def lasting (r t : Micros) (s : Stay) : Nat :=
  match s.stop with
  | some _ => 0
  | none => t - max s.start r

theorem overlap_eq (s : Stay) (r : Micros) {t : Micros} (h : ∀ stop ∈ s.stop, stop ≤ t) :
    s.overlap r t = s.spent r + s.lasting r t := by
  cases hs : s.stop with
  | none => simp [overlap, spent, lasting, hs]
  | some stop => simp [overlap, spent, lasting, hs, Nat.min_eq_left (h stop hs)]

theorem spent_leave (r now : Micros) (tid : ThreadId) (s : Stay) :
    (s.leave tid now).spent r = s.spent r + if s.thread = tid then s.lasting r now else 0 := by
  unfold leave
  cases hs : s.stop with
  | none => by_cases ht : s.thread = tid <;> simp [spent, lasting, hs, ht]
  | some stop => simp [spent, lasting, hs]

@[simp] theorem leave_core (tid : ThreadId) (now : Micros) (s : Stay) :
    (s.leave tid now).core = s.core := by
  unfold leave
  split_ifs <;> rfl

end Stay

namespace Turn

/-- What a turn does to the stays before it. -/
def applyTo (turn : Turn) (stays : List Stay) : List Stay :=
  (turn.leaving.elim stays fun tid => stays.map (Stay.leave tid turn.time)) ++
    (turn.entering.map fun tid => ⟨tid, turn.core, turn.time, none⟩).toList

theorem leftAt?_append (tid : ThreadId) (past : List Turn) (turn : Turn) :
    leftAt? tid (past ++ [turn]) =
      (leftAt? tid past <|> if turn.leaving = some tid then some turn.time else none) := by
  induction past with
  | nil => simp [leftAt?]
  | cons first rest ih =>
    by_cases h : first.leaving = some tid
    · simp [leftAt?, h]
    · simp only [List.cons_append, leftAt?, if_neg h, ih]

theorem stays_append (past : List Turn) (turn : Turn) :
    stays (past ++ [turn]) = turn.applyTo (stays past) := by
  induction past with
  | nil => cases hl : turn.leaving <;> simp [stays, applyTo, leftAt?, hl]
  | cons first rest ih =>
    rw [List.cons_append, stays, ih, stays, applyTo, applyTo, ← List.append_assoc]
    congr 1
    cases he : first.entering with
    | none => simp
    | some tid =>
      cases hl : turn.leaving with
      | none => simp [leftAt?_append, hl]
      | some left =>
        cases hs : leftAt? tid rest with
        | some stop => simp [leftAt?_append, hl, hs, Stay.leave]
        | none =>
          by_cases ht : tid = left
          · subst ht
            simp [leftAt?_append, hl, hs, Stay.leave]
          · have hne : left ≠ tid := fun h => ht h.symm
            simp [leftAt?_append, hl, hs, Stay.leave, ht, hne]

theorem leftAt?_le {tid : ThreadId} {turns : List Turn} {t : Micros}
    (h : ∀ turn ∈ turns, turn.time ≤ t) : ∀ stop ∈ leftAt? tid turns, stop ≤ t := by
  induction turns with
  | nil => simp [leftAt?]
  | cons turn rest ih =>
    intro stop hs
    simp only [leftAt?] at hs
    split_ifs at hs with hl
    · cases hs
      exact h turn List.mem_cons_self
    · exact ih (fun later hm => h later (List.mem_cons_of_mem _ hm)) stop hs

/-- Stays lie within the time of their turns. -/
theorem stays_le {turns : List Turn} {t : Micros} (h : ∀ turn ∈ turns, turn.time ≤ t) :
    ∀ s ∈ stays turns, s.start ≤ t ∧ ∀ stop ∈ s.stop, stop ≤ t := by
  induction turns with
  | nil => simp [stays]
  | cons turn rest ih =>
    have hrest : ∀ later ∈ rest, later.time ≤ t := fun later hm =>
      h later (List.mem_cons_of_mem _ hm)
    intro s hs
    rcases List.mem_append.mp hs with hnew | hold
    · obtain ⟨tid, -, rfl⟩ := Option.map_eq_some_iff.mp (Option.mem_toList.mp hnew)
      exact ⟨h turn List.mem_cons_self, leftAt?_le hrest⟩
    · exact ih hrest s hold

end Turn
end TraceReport
