import Mathlib.Algebra.Order.Field.Rat
import Mathlib.Tactic.FieldSimp
import Mathlib.Tactic.Ring
import TraceReport.Json.Writer
import TraceReport.Proofs.Decimal
import TraceReport.Proofs.Json.Literal

namespace TraceReport

namespace Json

/-- The digits of a positive number. -/
theorem digits_decimal (n : Nat) : Digits (Numeral.decimal n) where
  ne_nil := Nat.toDigits_ne_nil
  digit _ hc := Nat.isDigit_of_mem_toDigits (by decide) (by decide) hc

/-- Only zero begins with a zero. -/
theorem decimal_ne_zero_cons {n : Nat} (hn : 0 < n) (t : Text) : Numeral.decimal n ≠ '0' :: t := by
  unfold Numeral.decimal
  induction n using Nat.base_induction 10 (by decide) generalizing t with
  | single m hm =>
    rw [Nat.toDigits_of_lt_base hm]
    intro h
    have hzero : m = 0 := by simpa using congrArg List.head? h
    omega
  | digit m k hk hm ih =>
    rw [← Nat.toDigits_append_toDigits (by decide) hm hk]
    obtain ⟨c, w, hw⟩ := List.exists_cons_of_ne_nil (Nat.toDigits_ne_nil (n := m) (b := 10))
    rw [hw, List.cons_append]
    intro h
    have hc : c = '0' := by simpa using congrArg List.head? h
    exact ih hm w (hc ▸ hw)

theorem decimal_ne_zero_cons_cons (n : Nat) (c : Char) (t : Text) :
    Numeral.decimal n ≠ '0' :: c :: t := by
  rcases Nat.eq_zero_or_pos n with rfl | hn
  · simp [Numeral.decimal]
  · exact decimal_ne_zero_cons hn _

def intLiteral (n : Int) : Literal := ⟨decide (n < 0), Numeral.decimal n.natAbs, none, none⟩

theorem intLiteral_text (n : Int) : (intLiteral n).text = Numeral.signed n := by
  unfold Numeral.signed
  split_ifs with h <;> simp [intLiteral, Literal.text, h]

theorem intLiteral_valid (n : Int) : (intLiteral n).Valid where
  whole := digits_decimal _
  noZero := decimal_ne_zero_cons_cons _
  part := by simp [intLiteral]
  exponent := by simp [intLiteral]

theorem intLiteral_value (n : Int) : (intLiteral n).value = n := by
  have hdigits : Nat.ofDigitChars 10 (Numeral.decimal n.natAbs) 0 = n.natAbs :=
    Nat.ofDigitChars_ten_toDigits
  have hvalue : (intLiteral n).value = if n < 0 then -(n.natAbs : ℚ) else n.natAbs := by
    simp [Literal.value, Literal.power, intLiteral, hdigits]
  rw [hvalue]
  split_ifs with h
  · have habs : ((n.natAbs : Int) : ℚ) = ((-n : Int) : ℚ) :=
      congrArg Int.cast (Int.ofNat_natAbs_of_nonpos h.le)
    rw [Int.cast_natCast, Int.cast_neg] at habs
    rw [habs, neg_neg]
  · have habs : ((n.natAbs : Int) : ℚ) = (n : ℚ) :=
      congrArg Int.cast (Int.natAbs_of_nonneg (not_lt.mp h))
    rwa [Int.cast_natCast] at habs

/-- The literal of digits whose last one stands at a power of ten, laid out without exponent. -/
def pointLiteral (digits : Text) (place : Int) : Literal :=
  if 0 ≤ place then ⟨false, digits ++ List.replicate place.toNat '0', some ['0'], none⟩
  else if (-place).toNat < digits.length then
    ⟨false, digits.take (digits.length - (-place).toNat),
      some (digits.drop (digits.length - (-place).toNat)), none⟩
  else ⟨false, ['0'], some (List.replicate ((-place).toNat - digits.length) '0' ++ digits), none⟩

theorem pointLiteral_text (digits : Text) (place : Int) :
    (pointLiteral digits place).text = Decimal.withPoint .report digits place := by
  have hpoint : Decimal.Style.report.fraction = true := rfl
  unfold pointLiteral Decimal.withPoint
  split_ifs with h1 h2
  · simp [Literal.text]
  · simp [Literal.text, h2]
  · simp [Literal.text, h2]

/-- Digits that do not begin with a zero. -/
structure Figures (t : Text) : Prop extends Digits t where
  noZero : ∀ rest, t ≠ '0' :: rest

theorem figures_decimal {n : Nat} (hn : 0 < n) : Figures (Numeral.decimal n) where
  toDigits := digits_decimal n
  noZero := decimal_ne_zero_cons hn

theorem digit_of_mem_replicate {n : Nat} {c : Char} (h : c ∈ List.replicate n '0') :
    c.isDigit = true := by
  rw [List.eq_of_mem_replicate h]
  rfl

theorem pointLiteral_valid {digits : Text} (hd : Figures digits) (place : Int) :
    (pointLiteral digits place).Valid := by
  obtain ⟨c, w, rfl⟩ := List.exists_cons_of_ne_nil hd.ne_nil
  unfold pointLiteral
  split_ifs with h1 h2
  · refine ⟨⟨by simp, fun d hm => ?_⟩, fun d t h => ?_, ?_, by simp⟩
    · rcases List.mem_append.mp hm with hdigit | hzero
      · exact hd.digit d hdigit
      · exact digit_of_mem_replicate hzero
    · exact hd.noZero w ((List.cons.inj h).1 ▸ rfl)
    · rintro d ⟨rfl⟩
      exact ⟨by simp, by simp⟩
  · obtain ⟨k, hk⟩ : ∃ k, (c :: w).length - (-place).toNat = k + 1 :=
      ⟨(c :: w).length - (-place).toNat - 1, by omega⟩
    rw [hk]
    refine ⟨⟨by simp, fun d hm => hd.digit d (List.mem_of_mem_take hm)⟩, fun d t h => ?_, ?_,
      by simp⟩
    · exact hd.noZero w ((List.cons.inj h).1 ▸ rfl)
    · rintro d ⟨rfl⟩
      refine ⟨?_, fun d hm => hd.digit d (List.mem_of_mem_drop hm)⟩
      rw [ne_eq, List.drop_eq_nil_iff]
      omega
  · refine ⟨⟨by simp, by simp⟩, by simp, ?_, by simp⟩
    rintro d ⟨rfl⟩
    refine ⟨by simp, fun d hm => ?_⟩
    rcases List.mem_append.mp hm with hzero | hdigit
    · exact digit_of_mem_replicate hzero
    · exact hd.digit d hdigit

/-- Moving the point moves the power of ten along. -/
theorem pointLiteral_value (digits : Text) (place : Int) :
    (pointLiteral digits place).value = Nat.ofDigitChars 10 digits 0 * 10 ^ place := by
  unfold pointLiteral
  split_ifs with h1 h2
  · have hzeros : Nat.ofDigitChars 10 (digits ++ List.replicate place.toNat '0' ++ ['0']) 0 =
        10 * (10 ^ place.toNat * Nat.ofDigitChars 10 digits 0) := by
      rw [Nat.ofDigitChars_append, Nat.ofDigitChars_append, Nat.ofDigitChars_replicate_zero]
      simp [Nat.ofDigitChars_cons]
    have hplace : (10 : ℚ) ^ place = 10 ^ place.toNat := by
      conv_lhs => rw [← Int.toNat_of_nonneg h1]
      exact zpow_natCast _ _
    simp only [Literal.value, Literal.power, Option.getD_some, Option.elim_none, hzeros, hplace]
    push_cast
    simp
    ring
  · have hlen : (digits.drop (digits.length - (-place).toNat)).length = (-place).toNat := by
      rw [List.length_drop]
      omega
    have hplace : (0 : Int) - ((-place).toNat : Int) = place := by omega
    simp only [Literal.value, Literal.power, Option.getD_some, Option.elim_none,
      List.take_append_drop, hlen, hplace]
    simp
  · have hlen : ((List.replicate ((-place).toNat - digits.length) '0' ++ digits).length : Int) =
        -place := by
      rw [List.length_append, List.length_replicate]
      omega
    have hzeros : Nat.ofDigitChars 10
        (['0'] ++ (List.replicate ((-place).toNat - digits.length) '0' ++ digits)) 0 =
          Nat.ofDigitChars 10 digits 0 := by
      rw [Nat.ofDigitChars_append, Nat.ofDigitChars_append, Nat.ofDigitChars_replicate_zero]
      simp [Nat.ofDigitChars_cons]
    simp only [Literal.value, Literal.power, Option.getD_some, Option.elim_none, hlen, hzeros]
    simp

/-- The literal of digits with a point after the first one, and a power of ten. -/
def scientificLiteral (digits : Text) (power : Int) : Literal where
  negative := false
  whole := digits.take 1
  part := if digits.length ≤ 1 then none else some (digits.drop 1)
  exponent := some (decide (power < 0), Numeral.decimal power.natAbs)

theorem scientificLiteral_text {digits : Text} (hd : digits ≠ []) (power : Int) :
    (scientificLiteral digits power).text = Decimal.withExponent digits power := by
  unfold Decimal.withExponent scientificLiteral
  match digits, hd with
  | [c], _ => simp [Literal.text]
  | c :: d :: rest, _ => simp [Literal.text]

theorem scientificLiteral_valid {digits : Text} (hd : Digits digits) (power : Int) :
    (scientificLiteral digits power).Valid := by
  obtain ⟨c, w, rfl⟩ := List.exists_cons_of_ne_nil hd.ne_nil
  refine ⟨⟨by simp [scientificLiteral], fun d hm => hd.digit d (List.mem_of_mem_take hm)⟩,
    fun d t h => ?_, fun d hm => ?_, fun e hm => ?_⟩
  · simp [scientificLiteral] at h
  · simp only [scientificLiteral] at hm
    split_ifs at hm with hlen
    · simp at hm
    · obtain rfl := Option.some.inj hm
      refine ⟨?_, fun d hm => hd.digit d (List.mem_of_mem_drop hm)⟩
      rw [ne_eq, List.drop_eq_nil_iff]
      exact hlen
  · obtain rfl := Option.some.inj hm
    exact digits_decimal _

theorem scientificLiteral_value {digits : Text} (hd : digits ≠ []) (power : Int) :
    (scientificLiteral digits power).value =
      Nat.ofDigitChars 10 digits 0 * 10 ^ (power - digits.length + 1) := by
  have hpower : (scientificLiteral digits power).power = power := by
    have habs : Nat.ofDigitChars 10 (Numeral.decimal power.natAbs) 0 = power.natAbs :=
      Nat.ofDigitChars_ten_toDigits
    simp only [Literal.power, scientificLiteral, Option.elim_some, habs]
    split_ifs with h
    · have hneg : power < 0 := by simpa using h
      omega
    · have hpos : ¬power < 0 := by simpa using h
      omega
  have hjoin : digits.take 1 ++ ((scientificLiteral digits power).part.getD []) = digits ∧
      (((scientificLiteral digits power).part.getD []).length : Int) = digits.length - 1 := by
    obtain ⟨c, w, rfl⟩ := List.exists_cons_of_ne_nil hd
    cases w with
    | nil => simp [scientificLiteral]
    | cons d rest => simp [scientificLiteral]
  have hplace : power - ((digits.length : Int) - 1) = power - digits.length + 1 := by omega
  rw [Literal.value, hpower]
  change (if false then _ else (Nat.ofDigitChars 10 (digits.take 1 ++ _) 0 : ℚ) * _) = _
  simp [hjoin.1, hjoin.2, hplace]

end Json

/-- The number that the text of a double stands for: its shortest digits. -/
def Binary64.written? : Binary64 → Option ℚ
  | .finite negative mantissa exponent =>
    let found := Decimal.shortest Decimal.Style.report.tiesUp mantissa exponent
    let magnitude : ℚ := if mantissa = 0 then 0 else found.1 * 10 ^ found.2
    some (if negative then -magnitude else magnitude)
  | _ => none

namespace Json

theorem exists_magnitudeLiteral (mantissa : Nat) (exponent : Int) :
    let found := Decimal.shortest Decimal.Style.report.tiesUp mantissa exponent
    ∃ l : Literal, l.Valid ∧ l.negative = false ∧
      l.text = Decimal.Style.report.magnitude mantissa exponent ∧
      l.value = if mantissa = 0 then 0 else (found.1 : ℚ) * 10 ^ found.2 := by
  intro found
  by_cases hm : mantissa = 0
  · refine ⟨⟨false, ['0'], some ['0'], none⟩, ⟨⟨by simp, by simp⟩, by simp, ?_, by simp⟩, rfl,
      ?_, ?_⟩
    · rintro d ⟨rfl⟩
      exact ⟨by simp, by simp⟩
    · rw [Decimal.Style.magnitude, if_pos hm]
      rfl
    · simp [hm, Literal.value, Nat.ofDigitChars_cons]
  · have hpos : 0 < found.1 := Decimal.shortest_pos _ (Nat.pos_of_ne_zero hm) exponent
    have hfigures := figures_decimal hpos
    have hdigits : Nat.ofDigitChars 10 (Numeral.decimal found.1) 0 = found.1 :=
      Nat.ofDigitChars_ten_toDigits
    let power := found.2 + (Numeral.decimal found.1).length - 1
    have hmagnitude : Decimal.Style.report.magnitude mantissa exponent =
        if Decimal.Style.report.positional power then
          Decimal.withPoint .report (Numeral.decimal found.1) found.2
        else Decimal.withExponent (Numeral.decimal found.1) power := by
      rw [Decimal.Style.magnitude, if_neg hm]
    rw [hmagnitude, if_neg hm]
    split_ifs with hp
    · refine ⟨pointLiteral (Numeral.decimal found.1) found.2, pointLiteral_valid hfigures _, ?_,
        pointLiteral_text _ _, ?_⟩
      · unfold pointLiteral
        split_ifs <;> rfl
      · rw [pointLiteral_value, hdigits]
    · have hplace : power - (Numeral.decimal found.1).length + 1 = found.2 := by omega
      refine ⟨scientificLiteral (Numeral.decimal found.1) power,
        scientificLiteral_valid hfigures.toDigits _, rfl,
        scientificLiteral_text hfigures.ne_nil _, ?_⟩
      rw [scientificLiteral_value hfigures.ne_nil, hdigits, hplace]

/-- The text of a double is a literal for the number it stands for. -/
theorem exists_realLiteral {x : Binary64} {q : ℚ} (h : x.written? = some q) :
    ∃ l : Literal, l.Valid ∧ l.text = realText x ∧ l.value = q := by
  cases x with
  | infinite negative => simp [Binary64.written?] at h
  | nan => simp [Binary64.written?] at h
  | finite negative mantissa exponent =>
    obtain ⟨l, hv, hn, ht, hl⟩ := exists_magnitudeLiteral mantissa exponent
    obtain rfl := Option.some.inj h
    refine ⟨{ l with negative }, ⟨hv.whole, hv.noZero, hv.part, hv.exponent⟩, ?_, ?_⟩
    · have hsign : ({ l with negative } : Literal).text =
          if negative then '-' :: l.text else l.text := by
        cases negative <;> simp [Literal.text, hn]
      rw [hsign, ht]
      rfl
    · have hsign : ({ l with negative } : Literal).value =
          if negative then -l.value else l.value := by
        cases negative <;> simp [Literal.value, Literal.power, hn]
      rw [hsign, hl]

theorem realText_of_not_written {x : Binary64} (h : x.written? = none) :
    realText x = "null".toList := by
  cases x with
  | infinite negative => rfl
  | nan => rfl
  | finite negative mantissa exponent => simp [Binary64.written?] at h

theorem realText_no_lineFeed (x : Binary64) : '\n' ∉ realText x := by
  cases hx : x.written? with
  | none =>
    rw [realText_of_not_written hx]
    decide
  | some q =>
    obtain ⟨l, hv, hl, -⟩ := exists_realLiteral hx
    exact hl ▸ hv.no_lineFeed

end Json
end TraceReport
