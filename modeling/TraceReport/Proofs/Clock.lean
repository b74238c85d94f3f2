import Mathlib.Algebra.Order.Floor.Ring
import Mathlib.Algebra.Order.Floor.Semiring
import Mathlib.Data.Rat.Floor
import Mathlib.Tactic.FieldSimp
import Mathlib.Tactic.Linarith
import Mathlib.Tactic.Ring
import TraceReport.Clock
import TraceReport.Proofs.Outcome

namespace TraceReport.Clock

/-- What the digits after the point are worth, in seconds. -/
def fractionSeconds : Text → ℚ
  | [] => 0
  | c :: rest => (Numeral.digitValue c + fractionSeconds rest) / 10

/-- The instant a stamp denotes, in seconds; zero for what is no stamp. -/
def instant (stamp : Text) : ℚ :=
  (parts? stamp).elim 0 fun (seconds, fraction) => seconds + fractionSeconds fraction

/-- The second trace time counts from: that of the boot, or else the last full million. -/
def originAt (clock : Clock) (seconds : Nat) : Nat :=
  match clock.boot with
  | some boot => if boot ≤ seconds then boot else seconds - seconds % perSecond
  | none => seconds - seconds % perSecond

def origin (clock : Clock) (stamp : Text) : Nat :=
  (parts? stamp).elim 0 fun (seconds, _) => clock.originAt seconds

theorem digitValue_lt {c : Char} (h : c.isDigit = true) : Numeral.digitValue c < 10 := by
  have hrange : '0'.val ≤ c.val ∧ c.val ≤ '9'.val := by
    simpa [Char.isDigit] using h
  have hhigh : c.toNat ≤ '9'.toNat := UInt32.le_iff_toNat_le.mp hrange.2
  have hzero : '0'.toNat = 48 := rfl
  have hnine : '9'.toNat = 57 := rfl
  unfold Numeral.digitValue
  omega

theorem fractionSeconds_nonneg (t : Text) : 0 ≤ fractionSeconds t := by
  induction t with
  | nil => exact le_refl _
  | cons c rest ih =>
    have hdigit : (0 : ℚ) ≤ Numeral.digitValue c := Nat.cast_nonneg _
    rw [fractionSeconds]
    linarith

theorem fractionSeconds_lt_one {t : Text} (h : t.all Char.isDigit = true) :
    fractionSeconds t < 1 := by
  induction t with
  | nil => exact one_pos
  | cons c rest ih =>
    rw [List.all_cons, Bool.and_eq_true] at h
    have hdigit : (Numeral.digitValue c : ℚ) ≤ 9 := by
      exact_mod_cast Nat.le_of_lt_succ (digitValue_lt h.1)
    have hrest := ih h.2
    rw [fractionSeconds]
    linarith

/-- Digits read after a value count below it. -/
theorem foldl_digits (value : Nat) (t : Text) :
    t.foldl (fun n c => 10 * n + Numeral.digitValue c) value =
      value * 10 ^ t.length + t.foldl (fun n c => 10 * n + Numeral.digitValue c) 0 := by
  induction t generalizing value with
  | nil => simp
  | cons c rest ih =>
    rw [List.foldl_cons, List.foldl_cons, ih, ih (10 * 0 + _), List.length_cons, pow_succ]
    ring

/-- The first digits of a fraction, filled up with zeros, are what it is worth rounded down to
that many places. -/
theorem leading_eq_floor {t : Text} (h : t.all Char.isDigit = true) (places : Nat) :
    (t.take places).foldl (fun n c => 10 * n + Numeral.digitValue c) 0 *
      10 ^ (places - (t.take places).length) = ⌊fractionSeconds t * 10 ^ places⌋₊ := by
  induction t generalizing places with
  | nil => simp [fractionSeconds]
  | cons c rest ih =>
    have hall := h
    rw [List.all_cons, Bool.and_eq_true] at hall
    cases places with
    | zero =>
      have hone := fractionSeconds_lt_one h
      rw [List.take_zero, pow_zero, mul_one, Nat.floor_eq_zero.mpr hone]
      rfl
    | succ places =>
      have hnext : fractionSeconds (c :: rest) * 10 ^ (places + 1) =
          fractionSeconds rest * 10 ^ places +
            (Numeral.digitValue c * 10 ^ places : Nat) := by
        rw [fractionSeconds, pow_succ]
        push_cast
        ring
      have hpos : 0 ≤ fractionSeconds rest * 10 ^ places :=
        mul_nonneg (fractionSeconds_nonneg rest) (by positivity)
      have hkept : (rest.take places).length ≤ places := List.length_take_le _ _
      have hpow : 10 ^ (rest.take places).length * 10 ^ (places - (rest.take places).length) =
          10 ^ places := by
        rw [← pow_add, Nat.add_sub_cancel' hkept]
      rw [hnext, Nat.floor_add_natCast hpos, ← ih hall.2, List.take_succ_cons, List.foldl_cons,
        foldl_digits, List.length_cons, Nat.add_sub_add_right, add_mul, mul_assoc, hpow]
      ring

theorem fractionMicros_eq_floor {fraction : Text} (h : fraction.all Char.isDigit = true) :
    fractionMicros fraction = ⌊fractionSeconds fraction * perSecond⌋₊ := by
  have hplaces : (perSecond : ℚ) = 10 ^ fractionDigits := by
    norm_num [perSecond, fractionDigits]
  rw [hplaces, ← leading_eq_floor h]
  rfl

section

variable (clock : Clock) (seconds : Nat)

theorem originAt_le : clock.originAt seconds ≤ seconds := by
  unfold originAt
  split
  · split_ifs with hboot
    · exact hboot
    · exact Nat.sub_le _ _
  · exact Nat.sub_le _ _

theorem wholeSeconds_eq : clock.wholeSeconds seconds = seconds - clock.originAt seconds := by
  have hfold : seconds % perSecond = seconds - (seconds - seconds % perSecond) :=
    (Nat.sub_sub_self (Nat.mod_le _ _)).symm
  cases hboot : clock.boot with
  | none => simpa only [wholeSeconds, originAt, hboot] using hfold
  | some boot =>
    simp only [wholeSeconds, originAt, hboot]
    split_ifs
    · rfl
    · exact hfold

end

theorem parts?_digits {stamp : Text} {seconds : Nat} {fraction : Text}
    (h : parts? stamp = some (seconds, fraction)) : fraction.all Char.isDigit = true := by
  unfold parts? at h
  split at h
  · simp at h
  · split_ifs at h with hbad
    obtain ⟨n, -, heq⟩ := Option.map_eq_some_iff.mp h
    cases heq
    simp only [Bool.or_eq_true, not_or, Bool.not_eq_true] at hbad
    simpa using hbad.2

/-- Trace time is the microseconds that have passed in full since the origin. -/
theorem micros?_eq_floor {clock : Clock} {stamp : Text} {t : Micros}
    (h : clock.micros? stamp = some t) :
    t = ⌊(instant stamp - clock.origin stamp) * perSecond⌋₊ := by
  unfold micros? at h
  cases hp : parts? stamp with
  | none => simp [hp] at h
  | some parts =>
    obtain ⟨seconds, fraction⟩ := parts
    simp only [hp] at h
    split_ifs at h with hlimit
    obtain rfl := Option.some.inj h
    have hle := clock.originAt_le seconds
    have hsince : (instant stamp - clock.origin stamp) * perSecond =
        fractionSeconds fraction * perSecond + (clock.wholeSeconds seconds * perSecond : Nat) := by
      simp only [instant, origin, hp, Option.elim_some]
      rw [wholeSeconds_eq]
      push_cast [Nat.cast_sub hle]
      ring
    have hnonneg : 0 ≤ fractionSeconds fraction * perSecond :=
      mul_nonneg (fractionSeconds_nonneg _) (Nat.cast_nonneg _)
    rw [hsince, Nat.floor_add_natCast hnonneg, fractionMicros_eq_floor (parts?_digits hp),
      Nat.add_comm]

theorem fractionMicros_lt {fraction : Text} (h : fraction.all Char.isDigit = true) :
    fractionMicros fraction < perSecond := by
  have hpos : (0 : ℚ) < perSecond := by norm_num [perSecond]
  have hnonneg : 0 ≤ fractionSeconds fraction * perSecond :=
    mul_nonneg (fractionSeconds_nonneg _) hpos.le
  rw [fractionMicros_eq_floor h, Nat.floor_lt hnonneg]
  exact mul_lt_of_lt_one_left hpos (fractionSeconds_lt_one h)

section

variable {boot seconds : Nat} {fraction stamp : Text}

/-- After the boot, time is that since the boot. -/
theorem micros?_after_boot (hparts : parts? stamp = some (seconds, fraction))
    (hboot : boot ≤ seconds)
    (hfits : (seconds - boot) * perSecond + fractionMicros fraction ≤ Micros.limit) :
    micros? ⟨some boot⟩ stamp = some ((seconds - boot) * perSecond + fractionMicros fraction) := by
  simp only [micros?, hparts, wholeSeconds, if_pos hboot, if_pos hfits]

/-- A stamp before the boot is folded and so never past the limit. -/
theorem isSome_micros?_of_boot (hparts : parts? stamp = some (seconds, fraction))
    (hfits : (seconds - boot) * perSecond + fractionMicros fraction ≤ Micros.limit) :
    (micros? ⟨some boot⟩ stamp).isSome = true := by
  by_cases hboot : boot ≤ seconds
  · rw [micros?_after_boot hparts hboot hfits]
    rfl
  · have hfolded : seconds % perSecond < perSecond := Nat.mod_lt _ (by decide)
    have hfraction := fractionMicros_lt (parts?_digits hparts)
    have hlow : seconds % perSecond * perSecond + fractionMicros fraction ≤ Micros.limit := by
      have hwhole : seconds % perSecond * perSecond ≤ perSecond * perSecond :=
        Nat.mul_le_mul_right _ hfolded.le
      have hlimit : perSecond * perSecond + perSecond ≤ Micros.limit := by decide
      omega
    simp only [micros?, hparts, wholeSeconds, if_neg hboot, if_pos hlow, Option.isSome_some]

end

/-- Stamps that count from one origin keep the order of their instants. -/
theorem micros?_mono {clock : Clock} {a b : Text} {t u : Micros} (ha : clock.micros? a = some t)
    (hb : clock.micros? b = some u) (horigin : clock.origin a = clock.origin b)
    (hle : instant a ≤ instant b) : t ≤ u := by
  rw [micros?_eq_floor ha, micros?_eq_floor hb, horigin]
  apply Nat.floor_le_floor
  apply mul_le_mul_of_nonneg_right _ (Nat.cast_nonneg _)
  linarith

end TraceReport.Clock
