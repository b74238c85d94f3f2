import Mathlib.Logic.Basic
import Mathlib.Tactic.SplitIfs
import TraceReport.Decimal.Style

namespace TraceReport.Decimal

open Binary64 (Ratio)

theorem shift_fst_pos {a b : Nat} (ha : 0 < a) (e : Int) : 0 < (Ratio.shift a b e).1 := by
  unfold Ratio.shift
  split_ifs
  · change 0 < a <<< e.toNat
    rw [Nat.shiftLeft_eq]
    exact Nat.mul_pos ha (Nat.two_pow_pos _)
  · exact ha

namespace Interval

section

variable {i : Interval}

theorem unit_fst_pos (i : Interval) (place : Int) : 0 < (i.unit place).1 := by
  have hshift := shift_fst_pos (b := 1) Nat.one_pos i.exponent
  unfold unit
  dsimp only
  split_ifs
  · exact hshift
  · exact Nat.mul_pos hshift (Nat.pow_pos (by decide))

/-- An interval above zero holds no zero. -/
theorem pos_of_holds (hlow : 0 < i.low) {unit : Ratio} (hunit : 0 < unit.1) {digits : Nat}
    (h : i.holds unit digits = true) : 0 < digits := by
  have hpos : 0 < i.low * unit.1 := Nat.mul_pos hlow hunit
  apply Nat.pos_of_ne_zero
  rintro rfl
  unfold holds at h
  split_ifs at h
  · simp at h
    omega
  · simp at h

theorem holds_of_pick? {tiesUp : Bool} {place : Int} {digits : Nat}
    (h : i.pick? tiesUp place = some digits) : i.holds (i.unit place) digits = true := by
  simp only [pick?] at h
  split at h
  · simp at h
  · rename_i hbelow _
    exact Option.some.inj h ▸ hbelow
  · rename_i _ habove
    exact Option.some.inj h ▸ habove
  · rename_i hbelow habove
    split_ifs at h
    · exact Option.some.inj h ▸ hbelow
    · exact Option.some.inj h ▸ habove
    · exact Option.some.inj h ▸ habove
    · exact Option.some.inj h ▸ hbelow

theorem search_pos (hlow : 0 < i.low) (hmid : 0 < i.mid) (tiesUp : Bool) (steps : Nat)
    (place : Int) : 0 < (i.search tiesUp steps place).1 := by
  induction steps generalizing place with
  | zero => exact hmid
  | succ steps ih =>
    unfold search
    cases hp : i.pick? tiesUp place with
    | none => exact ih _
    | some digits => exact pos_of_holds hlow (i.unit_fst_pos place) (holds_of_pick? hp)

end

end Interval

/-- The digits of a positive double are those of a positive number. -/
theorem shortest_pos (tiesUp : Bool) {mantissa : Nat} (hm : 0 < mantissa) (exponent : Int) :
    0 < (shortest tiesUp mantissa exponent).1 := by
  have hlow : 0 < (Interval.around mantissa exponent).low := by
    have hcases : (Interval.around mantissa exponent).low = 4 * mantissa - 1 ∨
        (Interval.around mantissa exponent).low = 4 * mantissa - 2 := ite_eq_or_eq _ _ _
    omega
  have hmid : 0 < (Interval.around mantissa exponent).mid := by
    change 0 < 4 * mantissa
    omega
  exact Interval.search_pos hlow hmid tiesUp _ _

end TraceReport.Decimal

namespace TraceReport.Binary64

theorem exponentFor_le (n : Nat) : (exponentFor n 1).toNat ≤ n.log2 := by
  have hone : Nat.log2 1 = 0 := by decide
  unfold exponentFor leastExponent
  simp only [hone]
  split_ifs <;> omega

/-- A positive number is at least one unit of its last place. -/
theorem unit_le {n : Nat} (hn : 0 < n) :
    0 < (Ratio.shift n 1 (-exponentFor n 1)).2 ∧
      (Ratio.shift n 1 (-exponentFor n 1)).2 ≤ (Ratio.shift n 1 (-exponentFor n 1)).1 := by
  unfold Ratio.shift
  split_ifs
  · change 0 < 1 ∧ 1 ≤ n <<< _
    rw [Nat.shiftLeft_eq]
    exact ⟨Nat.one_pos, Nat.mul_pos hn (Nat.two_pow_pos _)⟩
  · change 0 < 1 <<< _ ∧ 1 <<< _ ≤ n
    rw [Nat.shiftLeft_eq, Nat.one_mul, Int.neg_neg]
    refine ⟨Nat.two_pow_pos _, ?_⟩
    calc 2 ^ (exponentFor n 1).toNat ≤ 2 ^ n.log2 :=
          Nat.pow_le_pow_right (by decide) (exponentFor_le n)
      _ ≤ n := Nat.log2_self_le (Nat.pos_iff_ne_zero.mp hn)

theorem nearest_pos {a b : Nat} (hb : 0 < b) (hle : b ≤ a) : 0 < nearest a b := by
  have hquotient : 0 < a / b := Nat.div_pos hle hb
  unfold nearest
  dsimp only
  split_ifs
  · exact Nat.succ_pos _
  · exact hquotient

/-- A positive number does not round to zero. -/
theorem ofNat_cases {n : Nat} (hn : 0 < n) :
    ofNat n = .infinite false ∨ ∃ m e, 0 < m ∧ ofNat n = .finite false m e := by
  obtain ⟨hunit, hle⟩ := unit_le hn
  have hpos := nearest_pos hunit hle
  unfold ofNat ofRatio
  rw [if_neg (Nat.pos_iff_ne_zero.mp hn)]
  dsimp only
  generalize nearest _ _ = m at hpos ⊢
  by_cases hcarry : m = 2 * hiddenBit
  · rw [if_pos hcarry]
    dsimp only
    split_ifs
    · exact .inl rfl
    · exact .inr ⟨_, _, by decide, rfl⟩
  · rw [if_neg hcarry]
    dsimp only
    split_ifs
    · exact .inl rfl
    · exact .inr ⟨_, _, hpos, rfl⟩

theorem ofRatio_zero (b : Nat) : ofRatio false 0 b = ofNat 0 := by
  rw [ofNat, ofRatio, ofRatio, if_pos rfl, if_pos rfl]

theorem zero_shift (b : Nat) (e : Int) : (Ratio.shift 0 b e).1 = 0 := by
  unfold Ratio.shift
  split_ifs
  · exact Nat.zero_shiftLeft _
  · rfl

/-- Zero over a positive number. -/
theorem zero_div {n : Nat} (hn : 0 < n) : (ofNat 0).div (ofNat n) = ofNat 0 := by
  rcases ofNat_cases hn with hinfinite | ⟨m, e, hm, hfinite⟩
  · rw [hinfinite]
    rfl
  · rw [hfinite]
    change (if m = 0 then _ else ofRatio _ (Ratio.shift 0 m _).1 _) = _
    rw [if_neg (Nat.pos_iff_ne_zero.mp hm), zero_shift]
    exact ofRatio_zero _

end TraceReport.Binary64
