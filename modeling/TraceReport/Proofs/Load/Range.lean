import Mathlib.Algebra.Order.Field.Rat
import Mathlib.Tactic.Linarith
import Mathlib.Tactic.Positivity
import Mathlib.Tactic.Ring
import TraceReport.Proofs.CommandLine.Limits
import TraceReport.Proofs.Load.Calls

namespace TraceReport

/-- What the counters of a window are computed with. -/
structure Arithmetic (α : Type) where
  ofNat : Nat → α
  mul : α → α → α
  div : α → α → α
  clamp : Nat → α → α
  total : List Nat → Nat

namespace Arithmetic

/-- Doubles, and sums in 64 bits. -/
def rounded : Arithmetic Binary64 where
  ofNat := .ofNat
  mul := .mul
  div := .div
  clamp := Binary64.atMost
  total busy := busy.foldl (· + ·) 0 % UInt64.size

/-- Exact numbers; a clamp has a lower end too. -/
def exact : Arithmetic ℚ where
  ofNat n := n
  mul := (· * ·)
  div := (· / ·)
  clamp limit x := max 0 (min x limit)
  total busy := busy.sum

end Arithmetic

namespace Window

section

variable {α : Type} (A : Arithmetic α)

def percentIn (period busy : Nat) : α :=
  A.div (A.mul (A.ofNat busy) (A.ofNat fullShare)) (A.ofNat period)

def sharesIn (w : Window) : List α :=
  w.busy.map fun busy => A.clamp fullShare (percentIn A w.period busy)

def meanIn (w : Window) : α :=
  A.div (percentIn A w.period (A.total w.busy)) (A.ofNat w.busy.length)

def totalIn (w : Window) : α := A.clamp fullShare (w.meanIn A)

end

/-- The counters of a window are these in doubles. -/
theorem shares_eq (w : Window) : w.shares = w.sharesIn .rounded := rfl

theorem total_eq (w : Window) : w.total = w.totalIn .rounded := by
  simp only [totalIn, meanIn, percentIn, Arithmetic.rounded, total, percent, busyTotal]

/-- No core was busy for longer than the period. -/
structure Bounded (w : Window) (cores period : Nat) : Prop where
  period_eq : w.period = period
  length_eq : w.busy.length = cores
  busy_le : ∀ busy ∈ w.busy, busy ≤ period

theorem sum_le {busy : List Nat} {period : Nat} (h : ∀ b ∈ busy, b ≤ period) :
    busy.sum ≤ period * busy.length := by
  calc
    busy.sum ≤ busy.length • period := List.sum_le_card_nsmul busy period h
    _ = period * busy.length := Nat.mul_comm _ _

theorem foldl_add (busy : List Nat) (n : Nat) : busy.foldl (· + ·) n = n + busy.sum := by
  induction busy generalizing n with
  | nil => rfl
  | cons b rest ih => rw [List.foldl_cons, ih, List.sum_cons, Nat.add_assoc]

/-- The sum of the busy times is exact while 64 bits hold all cores' periods. -/
theorem Bounded.busyTotal_eq {w : Window} {cores period : Nat} (h : w.Bounded cores period)
    (fits : period * cores < UInt64.size) : w.busyTotal = w.busy.sum := by
  have hs := sum_le h.busy_le
  rw [h.length_eq] at hs
  rw [busyTotal, foldl_add, Nat.zero_add, Nat.mod_eq_of_lt (hs.trans_lt fits)]

theorem clamp_exact {x : ℚ} (h0 : 0 ≤ x) (h1 : x ≤ 100) :
    Arithmetic.exact.clamp fullShare x = x := by
  change max 0 (min x ((100 : Nat) : ℚ)) = x
  rw [Nat.cast_ofNat, min_eq_left h1, max_eq_right h0]

theorem percentIn_exact (period busy : Nat) :
    percentIn .exact period busy = (busy : ℚ) * 100 / period := by
  change (busy : ℚ) * ((100 : Nat) : ℚ) / period = _
  rw [Nat.cast_ofNat]

theorem percentIn_exact_range {period busy : Nat} (hp : 0 < period) (hb : busy ≤ period) :
    0 ≤ percentIn .exact period busy ∧ percentIn .exact period busy ≤ 100 := by
  have hq : (0 : ℚ) < period := by exact_mod_cast hp
  have hbq : (busy : ℚ) ≤ period := by exact_mod_cast hb
  have hb0 : (0 : ℚ) ≤ busy := Nat.cast_nonneg busy
  rw [percentIn_exact]
  constructor
  · positivity
  · rw [div_le_iff₀ hq]
    linarith

theorem Bounded.sharesIn_exact {w : Window} {cores period : Nat} (h : w.Bounded cores period)
    (hp : 0 < period) : w.sharesIn .exact = w.busy.map (percentIn .exact period) := by
  rw [sharesIn, h.period_eq]
  apply List.map_congr_left
  intro busy hb
  have hr := percentIn_exact_range hp (h.busy_le busy hb)
  exact clamp_exact hr.1 hr.2

theorem sum_percentIn_exact (period : Nat) (busy : List Nat) :
    (busy.map (percentIn .exact period)).sum = (busy.sum : ℚ) * 100 / period := by
  induction busy with
  | nil => simp
  | cons b rest ih =>
    rw [List.map_cons, List.sum_cons, ih, percentIn_exact, List.sum_cons, Nat.cast_add]
    ring

theorem Bounded.meanIn_exact {w : Window} {cores period : Nat} (h : w.Bounded cores period)
    (hp : 0 < period) : w.meanIn .exact = (w.sharesIn .exact).sum / cores := by
  rw [h.sharesIn_exact hp, sum_percentIn_exact, ← h.length_eq, ← h.period_eq, ← percentIn_exact]
  rfl

theorem Bounded.meanIn_exact_range {w : Window} {cores period : Nat} (h : w.Bounded cores period)
    (hp : 0 < period) (hc : 0 < cores) :
    0 ≤ w.meanIn .exact ∧ w.meanIn .exact ≤ 100 := by
  have hpq : (0 : ℚ) < period := by exact_mod_cast hp
  have hcq : (0 : ℚ) < cores := by exact_mod_cast hc
  have hs : (w.busy.sum : ℚ) ≤ period * cores := by
    have hs := sum_le h.busy_le
    rw [h.length_eq] at hs
    exact_mod_cast hs
  have hs0 : (0 : ℚ) ≤ w.busy.sum := Nat.cast_nonneg _
  rw [h.meanIn_exact hp, h.sharesIn_exact hp, sum_percentIn_exact]
  constructor
  · positivity
  · rw [div_le_iff₀ hcq, div_le_iff₀ hpq]
    linarith

end Window

namespace Load

/-- What holds of a load after any calls: no core is busy for longer than the period, and threads
only run on known cores. -/
structure Bounded (load : Load) (cores period : Nat) : Prop where
  period_eq : load.period = period
  cores_eq : load.cores = cores
  busy_le : ∀ busy ∈ load.busy, busy ≤ period
  ordered : Table.Ordered load.running
  core_lt : ∀ entry ∈ load.running, entry.2.1 < cores

theorem new_bounded (cores period : Nat) :
    (Load.new cores period).Bounded (max cores 1) (max period 1) where
  period_eq := rfl
  cores_eq := List.length_replicate
  busy_le busy hb := by
    rw [List.eq_of_mem_replicate hb]
    exact Nat.zero_le _
  ordered := List.Pairwise.nil
  core_lt entry hm := by simp [Load.new] at hm

section

variable {load : Load} {cores period : Nat}

theorem Bounded.addBusy (h : load.Bounded cores period) (core : Core) (span : Nat) :
    (load.addBusy core span).Bounded cores period where
  period_eq := h.period_eq
  cores_eq := (load.addBusy_cores core span).trans h.cores_eq
  busy_le busy hb := by
    obtain ⟨i, hi⟩ := List.mem_iff_getElem?.mp hb
    rw [addBusy_busy] at hi
    split_ifs at hi with hc
    · obtain ⟨old, -, rfl⟩ := Option.map_eq_some_iff.mp hi
      rw [h.period_eq]
      exact Nat.min_le_right _ _
    · exact h.busy_le busy (List.mem_iff_getElem?.mpr ⟨i, hi⟩)
  ordered := h.ordered
  core_lt := h.core_lt

theorem Bounded.addAll (h : load.Bounded cores period) (credits : List (Core × Nat)) :
    (load.addAll credits).Bounded cores period := by
  induction credits generalizing load with
  | nil => exact h
  | cons credit rest ih => exact ih (h.addBusy credit.1 credit.2)

/-- Only known cores are ever credited. -/
theorem Bounded.credits_lt (h : load.Bounded cores period) (c : Call) :
    ∀ credit ∈ load.credits c, credit.1 < cores := by
  intro credit hm
  cases c with
  | observe now => simp [credits] at hm
  | enter tid core now => simp [credits] at hm
  | leave tid now =>
    cases hf : load.running.find? tid with
    | none => simp [credits, hf] at hm
    | some found =>
      have he : credit = (found.1, Micros.since now found.2) := by
        simpa [credits, hf] using hm
      rw [he]
      exact h.core_lt (tid, found) (Table.mem_of_find? hf)
  | close now =>
    cases hw : load.windowEnd with
    | none => simp [credits, hw] at hm
    | some ending =>
      simp only [credits, hw, owed] at hm
      split_ifs at hm
      · simp at hm
      · obtain ⟨entry, he, rfl⟩ := List.mem_map.mp hm
        exact h.core_lt entry he

theorem Bounded.openWindow (h : load.Bounded cores period) (now : Micros) :
    (load.openWindow now).Bounded cores period := by
  cases hw : load.windowEnd with
  | none => simpa [Load.openWindow, hw] using ⟨h.1, h.2, h.3, h.4, h.5⟩
  | some ending => simpa [Load.openWindow, hw] using h

theorem Bounded.leave (h : load.Bounded cores period) (tid : ThreadId) (now : Micros) :
    (load.leave tid now).Bounded cores period := by
  have hc := h.addAll (load.credits (.leave tid now))
  rw [leave_eq load tid now h.ordered]
  exact ⟨hc.period_eq, hc.cores_eq, hc.busy_le, h.ordered.filter _,
    fun entry hm => h.core_lt entry (List.mem_of_mem_filter hm)⟩

theorem Bounded.enter (h : load.Bounded cores period) (tid : ThreadId) (core : Core)
    (now : Micros) : (load.enter tid core now).Bounded cores period := by
  unfold Load.enter
  split_ifs with hk
  · refine ⟨h.period_eq, h.cores_eq, h.busy_le, Table.ordered_insert _ _ h.ordered, ?_⟩
    intro entry hm
    rcases Table.mem_insert hm with rfl | hold
    · exact h.cores_eq ▸ hk
    · exact h.core_lt entry hold
  · exact h

/-- A window that closes holds the busy times with all running threads counted, and the next one
starts from nothing. -/
theorem Bounded.closeWindow (h : load.Bounded cores period) (now : Micros) :
    (load.closeWindow now).1.Bounded cores period ∧
      ∀ w ∈ (load.closeWindow now).2, w.Bounded cores period := by
  cases hw : load.windowEnd with
  | none => simpa [Load.closeWindow, hw] using h
  | some ending =>
    by_cases hn : now < ending
    · simpa [Load.closeWindow, hw, hn] using h
    · have hc := h.addAll (load.owed now)
      simp only [Load.closeWindow, hw, if_neg hn, settle_eq]
      constructor
      · refine ⟨hc.period_eq, (List.length_map _).trans hc.cores_eq, ?_, ?_, ?_⟩
        · intro busy hb
          obtain ⟨old, -, rfl⟩ := List.mem_map.mp hb
          exact Nat.zero_le _
        · exact Table.ordered_map (fun _ value => (value.1, now)) h.ordered
        · intro entry hm
          obtain ⟨old, ho, rfl⟩ := List.mem_map.mp hm
          exact h.core_lt old ho
      · intro w hm
        cases hm
        exact ⟨h.period_eq, hc.cores_eq, hc.busy_le⟩

theorem Bounded.call (h : load.Bounded cores period) (c : Call) :
    (load.call c).1.Bounded cores period ∧
      ∀ w ∈ (load.call c).2, w.Bounded cores period := by
  cases c with
  | observe now => exact ⟨h.openWindow now, by simp [Load.call]⟩
  | leave tid now => exact ⟨h.leave tid now, by simp [Load.call]⟩
  | enter tid core now => exact ⟨h.enter tid core now, by simp [Load.call]⟩
  | close now => exact h.closeWindow now

theorem Bounded.calls (h : load.Bounded cores period) (cs : List Call) :
    (load.calls cs).1.Bounded cores period ∧
      ∀ w ∈ (load.calls cs).2, w.Bounded cores period := by
  induction cs generalizing load with
  | nil => exact ⟨h, by simp [Load.calls]⟩
  | cons c rest ih =>
    have hs := h.call c
    have hr := ih hs.1
    refine ⟨hr.1, ?_⟩
    intro w hm
    rcases List.mem_append.mp hm with hnow | hlater
    · exact hs.2 w (Option.mem_toList.mp hnow)
    · exact hr.2 w hlater

end

/-- Whatever is called in whatever order, busy times stay within the period, and a call counts
spans of known cores only. So sums fit 64 bits, and the counters of every window are, but for
rounding, percentages and their mean, which no clamp changes. -/
theorem calls_in_range (cores period : Nat) (cs : List Call) :
    let C := max cores 1
    let P := max period 1
    let load := ((Load.new cores period).calls cs).1
    let windows := ((Load.new cores period).calls cs).2
    (load.busy.length = C ∧ (∀ busy ∈ load.busy, busy ≤ P) ∧ load.busy.sum ≤ P * C) ∧
    (∀ entry ∈ load.running, entry.2.1 < C) ∧
    (∀ next, (∀ credit ∈ load.credits next, credit.1 < C) ∧
      load.counted next = (load.addAll (load.credits next)).busy) ∧
    (∀ w ∈ windows,
      w.busy.length = C ∧ (∀ busy ∈ w.busy, busy ≤ P) ∧ w.busy.sum ≤ P * C ∧
      (P * C < UInt64.size → w.busyTotal = w.busy.sum) ∧
      w.shares = w.sharesIn .rounded ∧ w.total = w.totalIn .rounded ∧
      w.sharesIn .exact = w.busy.map (fun busy : Nat => (busy : ℚ) * 100 / P) ∧
      (∀ share ∈ w.sharesIn .exact, 0 ≤ share ∧ share ≤ 100) ∧
      w.totalIn .exact = w.meanIn .exact ∧
      w.totalIn .exact = (w.sharesIn .exact).sum / C ∧
      0 ≤ w.totalIn .exact ∧ w.totalIn .exact ≤ 100) ∧
    ∀ words a boot n settings job, Arguments.read words = .ok a → a.cores = some n →
      Job.plan settings (Program.session a boot n).options = .ok job →
      max job.periodMicros 1 * max job.cores 1 < UInt64.size := by
  intro C P load windows
  have hC : 0 < C := by omega
  have hP : 0 < P := by omega
  obtain ⟨hl, hw⟩ := (new_bounded cores period).calls cs
  have hsum := Window.sum_le hl.busy_le
  rw [show load.busy.length = C from hl.cores_eq] at hsum
  refine ⟨⟨hl.cores_eq, hl.busy_le, hsum⟩, hl.core_lt, fun next => ?_, fun w hm => ?_, ?_⟩
  · exact ⟨hl.credits_lt next, load.counted_eq hl.ordered next⟩
  · have h := hw w hm
    have hs := Window.sum_le h.busy_le
    rw [h.length_eq] at hs
    have hshares := h.sharesIn_exact hP
    have hmean := h.meanIn_exact_range hP hC
    have htotal : w.totalIn .exact = w.meanIn .exact := Window.clamp_exact hmean.1 hmean.2
    refine ⟨h.length_eq, h.busy_le, hs, h.busyTotal_eq, w.shares_eq, w.total_eq, ?_, ?_, htotal,
      htotal.trans (h.meanIn_exact hP), htotal ▸ hmean⟩
    · rw [hshares]
      exact List.map_congr_left fun busy _ => Window.percentIn_exact P busy
    · rw [hshares]
      intro share hshare
      obtain ⟨busy, hb, rfl⟩ := List.mem_map.mp hshare
      exact Window.percentIn_exact_range hP (h.busy_le busy hb)
  · intro words a boot n settings job hr hc hj
    exact Arguments.read_busy_fits hr hc hj

/-- A window that closes late counts no core beyond its period, and the greatest numbers that the
command line lets through are in range. -/
theorem calls_in_range_late :
    let windows := ((Load.new 2 1000).calls
      [.observe 0, .enter 1 0 0, .enter 2 1 0, .leave 1 900, .close 3000]).2
    let w : Window := ⟨1000, 1000, [900, 1000]⟩
    let words := ["--cores=65535".toList, "-m1000".toList]
    let a := { Arguments.none with cores := some 65535, period := some 1000 }
    let settings : Settings := ⟨[], false, ⟨false, []⟩, true⟩
    windows = [w] ∧ w.busyTotal = 1900 ∧
      w.shares = [.ofNat 90, .ofNat 100] ∧ w.total = .ofNat 95 ∧
      w.sharesIn .exact = [90, 100] ∧ w.totalIn .exact = 95 ∧
      Arguments.read words = .ok a ∧
      ∃ job, Job.plan settings (Program.session a none 65535).options = .ok job ∧
        job.periodMicros = 1000000 ∧ job.cores = 65535 ∧
        max job.periodMicros 1 * max job.cores 1 < UInt64.size := by
  intro windows w words a settings
  have hwindows : windows = [w] := by decide
  obtain ⟨-, -, -, hw, hfits⟩ := calls_in_range 2 1000
    [.observe 0, .enter 1 0 0, .enter 2 1 0, .leave 1 900, .close 3000]
  have hmem : w ∈ windows := by
    rw [hwindows]
    exact List.mem_singleton_self w
  obtain ⟨-, -, -, hsum, -, -, hshares, -, -, htotal, -⟩ := hw w hmem
  have hexact : w.sharesIn .exact = [90, 100] := by
    rw [hshares]
    norm_num [w]
  have hmean : w.totalIn .exact = 95 := by
    rw [htotal, hexact]
    norm_num
  have hread : Arguments.read words = .ok a := by decide +kernel
  obtain ⟨job, hplan, hperiod, hcores⟩ : ∃ job,
      Job.plan settings (Program.session a none 65535).options = .ok job ∧
      job.periodMicros = 1000000 ∧ job.cores = 65535 := ⟨_, rfl, rfl, rfl⟩
  exact ⟨hwindows, hsum (by decide), by decide +kernel, by decide +kernel, hexact, hmean, hread,
    job, hplan, hperiod, hcores, hfits words a none 65535 settings job hread rfl hplan⟩

end Load
end TraceReport
