import TraceReport.Proofs.Decimal
import TraceReport.Proofs.Load.Busy

namespace TraceReport

namespace Window

/-- The same window of a load with more cores, on which nothing ran. -/
def widen (extra : Nat) (w : Window) : Window :=
  { w with busy := w.busy ++ List.replicate extra 0 }

/-- A window of a few cores and one of many that differ in the cores on which nothing ran: they end
alike, the shares of the other cores are zero, and the mean, but for rounding, is of as much
time. -/
structure Spares (few many : Nat) (w wide : Window) : Prop where
  ending : wide.ending = w.ending
  length_shares : w.shares.length = few
  shares : wide.shares = w.shares ++ List.replicate (many - few) (.ofNat 0)
  rounded_shares : w.shares = w.sharesIn .rounded ∧ wide.shares = wide.sharesIn .rounded
  exact_shares : wide.sharesIn .exact = w.sharesIn .exact ++ List.replicate (many - few) 0
  rounded_total : w.total = w.totalIn .rounded ∧ wide.total = wide.totalIn .rounded
  exact_total : wide.totalIn .exact * many = w.totalIn .exact * few

theorem percent_idle {period : Nat} (hperiod : 0 < period) : percent period 0 = .ofNat 0 := by
  have hzero : (Binary64.ofNat 0).mul (.ofNat fullShare) = .ofNat 0 := by decide +kernel
  rw [percent, hzero, Binary64.zero_div hperiod]

theorem sharesIn_widen {α : Type} (A : Arithmetic α) (w : Window) (extra : Nat) :
    (w.widen extra).sharesIn A =
      w.sharesIn A ++ List.replicate extra (A.clamp fullShare (percentIn A w.period 0)) := by
  rw [sharesIn, widen, List.map_append, List.map_replicate]
  rfl

section

variable {w : Window} {cores period : Nat} (hb : w.Bounded cores period)
include hb

theorem Bounded.widen (extra : Nat) : (w.widen extra).Bounded (cores + extra) period where
  period_eq := hb.period_eq
  length_eq := by rw [Window.widen, List.length_append, hb.length_eq, List.length_replicate]
  busy_le busy hm := by
    rcases List.mem_append.mp hm with hold | hidle
    · exact hb.busy_le busy hold
    · rw [List.eq_of_mem_replicate hidle]
      exact Nat.zero_le _

theorem Bounded.totalIn_exact_mul (hcores : 0 < cores) (hperiod : 0 < period) :
    w.totalIn .exact * cores = (w.sharesIn .exact).sum := by
  obtain ⟨hlow, hhigh⟩ := hb.meanIn_exact_range hperiod hcores
  have hnonzero : (cores : ℚ) ≠ 0 := by exact_mod_cast hcores.ne'
  rw [totalIn, clamp_exact hlow hhigh, hb.meanIn_exact hperiod, div_mul_cancel₀ _ hnonzero]

theorem Bounded.spares (hcores : 0 < cores) (hperiod : 0 < period) {many : Nat}
    (hle : cores ≤ many) : Spares cores many w (w.widen (many - cores)) := by
  have hwide : (w.widen (many - cores)).Bounded many period := by
    have hmany : cores + (many - cores) = many := by omega
    have hwidened := hb.widen (many - cores)
    rwa [hmany] at hwidened
  have hidle : Arithmetic.exact.clamp fullShare (percentIn .exact w.period 0) = 0 := by
    have hzero : percentIn .exact w.period 0 = 0 := by simp [percentIn_exact]
    rw [hzero]
    exact clamp_exact (le_refl 0) (by norm_num)
  have hshares : (w.widen (many - cores)).sharesIn .exact =
      w.sharesIn .exact ++ List.replicate (many - cores) 0 := by
    rw [sharesIn_widen, hidle]
  have hpercent : percent w.period 0 = .ofNat 0 := percent_idle (hb.period_eq ▸ hperiod)
  have hclamp : (Binary64.ofNat 0).atMost fullShare = .ofNat 0 := by decide +kernel
  exact {
    ending := rfl
    length_shares := by rw [shares, List.length_map, hb.length_eq]
    shares := by
      rw [shares, Window.widen, List.map_append, List.map_replicate, hpercent, hclamp]
      rfl
    rounded_shares := ⟨w.shares_eq, shares_eq _⟩
    exact_shares := hshares
    rounded_total := ⟨w.total_eq, total_eq _⟩
    exact_total := by
      rw [hwide.totalIn_exact_mul (hcores.trans_le hle) hperiod,
        hb.totalIn_exact_mul hcores hperiod, hshares]
      simp }

end

end Window

namespace Load

/-- The same load with more cores, on which nothing runs. -/
def widen (extra : Nat) (load : Load) : Load :=
  { load with busy := load.busy ++ List.replicate extra 0 }

theorem new_widen {few many : Nat} (hfew : 1 ≤ few) (hle : few ≤ many) (period : Nat) :
    Load.new many period = (Load.new few period).widen (many - few) := by
  have hcores : max many 1 = max few 1 + (many - few) := by omega
  rw [new, hcores, ← List.replicate_append_replicate]
  rfl

theorem modify_append {α : Type} (front rest : List α) {i : Nat} (h : i < front.length)
    (f : α → α) : (front ++ rest).modify i f = front.modify i f ++ rest := by
  induction front generalizing i with
  | nil => exact absurd h (Nat.not_lt_zero i)
  | cons first more ih =>
    cases i with
    | zero => rfl
    | succ i =>
      have hmore : i < more.length := Nat.lt_of_succ_lt_succ h
      rw [List.cons_append, List.modify_succ_cons, List.modify_succ_cons, ih hmore,
        List.cons_append]

section

variable (load : Load) (extra : Nat)

theorem addBusy_widen {core : Core} (hcore : core < load.cores) (span : Nat) :
    (load.widen extra).addBusy core span = (load.addBusy core span).widen extra := by
  simp only [addBusy, widen, modify_append load.busy _ hcore]

theorem addAll_widen {credits : List (Core × Nat)}
    (hcores : ∀ credit ∈ credits, credit.1 < load.cores) :
    (load.widen extra).addAll credits = (load.addAll credits).widen extra := by
  induction credits generalizing load with
  | nil => rfl
  | cons credit rest ih =>
    have hfirst : credit.1 < load.cores := hcores credit List.mem_cons_self
    have hrest : ∀ other ∈ rest, other.1 < (load.addBusy credit.1 credit.2).cores := by
      intro other hm
      rw [addBusy_cores]
      exact hcores other (List.mem_cons_of_mem credit hm)
    rw [addAll_cons, addAll_cons, addBusy_widen load extra hfirst, ih _ hrest]

theorem openWindow_widen (now : Micros) :
    (load.widen extra).openWindow now = (load.openWindow now).widen extra := by
  cases hw : load.windowEnd with
  | none => simp [openWindow, widen, hw]
  | some ending => simp [openWindow, widen, hw]

/-- A core that was followed before is still followed, and no other is asked for. -/
theorem enter_widen (tid : ThreadId) {core : Core} (hcore : core < load.cores) (now : Micros) :
    (load.widen extra).enter tid core now = (load.enter tid core now).widen extra := by
  have hwide : core < (load.widen extra).cores := by
    rw [cores, widen, List.length_append]
    exact Nat.lt_add_right _ hcore
  rw [enter, enter, if_pos hcore, if_pos hwide]
  rfl

end

section

variable {load : Load} {cores period : Nat} (hb : load.Bounded cores period) (extra : Nat)
include hb

theorem Bounded.leave_widen (tid : ThreadId) (now : Micros) :
    (load.widen extra).leave tid now = (load.leave tid now).widen extra := by
  unfold Load.leave
  rw [show (load.widen extra).running = load.running from rfl]
  cases hf : load.running.find? tid with
  | none => rfl
  | some found =>
    have hcore : found.1 < load.cores := by
      rw [hb.cores_eq]
      exact hb.core_lt (tid, found) (Table.mem_of_find? hf)
    exact addBusy_widen { load with running := load.running.erase tid } extra hcore _

theorem Bounded.settle_widen (now : Micros) :
    (load.widen extra).settle now = (load.settle now).widen extra := by
  have howed : ∀ credit ∈ load.owed now, credit.1 < load.cores := by
    intro credit hm
    obtain ⟨entry, he, rfl⟩ := List.mem_map.mp hm
    rw [hb.cores_eq]
    exact hb.core_lt entry he
  have hadded : (load.widen extra).addAll ((load.widen extra).owed now) =
      (load.addAll (load.owed now)).widen extra := addAll_widen load extra howed
  rw [settle_eq, settle_eq, hadded]
  rfl

theorem Bounded.closeWindow_widen (now : Micros) :
    (load.widen extra).closeWindow now =
      ((load.closeWindow now).1.widen extra,
        (load.closeWindow now).2.map (Window.widen extra)) := by
  have hend : (load.widen extra).windowEnd = load.windowEnd := rfl
  unfold Load.closeWindow
  rw [hend, hb.settle_widen extra now]
  cases load.windowEnd with
  | none => rfl
  | some ending =>
    by_cases hearly : now < ending
    · simp only [if_pos hearly, Option.map_none]
    · simp only [if_neg hearly, widen, List.map_append, List.map_replicate]
      rfl

theorem Bounded.vacated_widen (turn : Turn) :
    (load.widen extra).vacated turn = (load.vacated turn).widen extra := by
  unfold Load.vacated
  cases turn.leaving with
  | none => exact openWindow_widen load extra turn.time
  | some tid =>
    simp only [openWindow_widen]
    exact (hb.openWindow turn.time).leave_widen extra tid turn.time

/-- As long as threads only enter known cores, other cores change nothing but that they are
there. -/
theorem Bounded.take_widen {turn : Turn} (hcore : turn.core < cores) :
    (load.widen extra).take turn =
      ((load.take turn).1.widen extra, (load.take turn).2.map (Window.widen extra)) := by
  have hvacated := hb.vacated turn
  have hknown : turn.core < (load.vacated turn).cores := by
    rw [hvacated.cores_eq]
    exact hcore
  unfold Load.take
  rw [hb.vacated_widen extra turn]
  cases turn.entering with
  | none => exact hvacated.closeWindow_widen extra turn.time
  | some tid =>
    simp only [Option.elim_some, enter_widen _ extra tid hknown]
    exact (hvacated.enter tid turn.core turn.time).closeWindow_widen extra turn.time

end

end Load
end TraceReport
