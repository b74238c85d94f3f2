import TraceReport.Proofs.Json.Numbers
import TraceReport.Proofs.Outcome
import TraceReport.Proofs.Text.Words

namespace TraceReport

theorem Text.isBlank_of_isDigit {c : Char} (h : c.isDigit = true) : isBlank c = false := by
  have hrange : '0'.val ≤ c.val ∧ c.val ≤ '9'.val := by simpa [Char.isDigit] using h
  have hlow : '0'.toNat ≤ c.toNat := UInt32.le_iff_toNat_le.mp hrange.1
  have hhigh : c.toNat ≤ '9'.toNat := UInt32.le_iff_toNat_le.mp hrange.2
  have hzero : '0'.toNat = 48 := rfl
  have hnine : '9'.toNat = 57 := rfl
  unfold isBlank
  simp only [Bool.or_eq_false_iff, Bool.and_eq_false_iff, decide_eq_false_iff_not,
    beq_eq_false_iff_ne]
  omega

theorem Json.Digits.isWord {t : Text} (h : Json.Digits t) : Text.IsWord t :=
  ⟨h.ne_nil, fun c hc => Text.isBlank_of_isDigit (h.digit c hc)⟩

namespace Numeral

theorem le_ofDigitChars (t : Text) (value : Nat) : value ≤ Nat.ofDigitChars 10 t value := by
  rw [Nat.ofDigitChars_eq_ofDigitChars_zero]
  exact Nat.le_add_right_of_le (Nat.le_mul_of_pos_left value (Nat.pow_pos (by decide)))

/-- Digits are read as the number they write, while it stays within the limit. -/
theorem extend_digits {limit value : Nat} {t : Text} (hd : ∀ c ∈ t, c.isDigit = true)
    (hl : Nat.ofDigitChars 10 t value ≤ limit) :
    extend limit value t = .ok (Nat.ofDigitChars 10 t value) := by
  induction t generalizing value with
  | nil => rfl
  | cons c rest ih =>
    rw [Nat.ofDigitChars_cons] at hl ⊢
    have hnext : 10 * value + digitValue c ≤ limit := (le_ofDigitChars rest _).trans hl
    rw [extend, if_pos (hd c (by simp))]
    exact (if_pos hnext).trans (ih (fun d hm => hd d (List.mem_cons_of_mem _ hm)) hl)

theorem natural_digits {limit : Nat} {t : Text} (hd : Json.Digits t)
    (hl : Nat.ofDigitChars 10 t 0 ≤ limit) : natural limit t = .ok (Nat.ofDigitChars 10 t 0) := by
  obtain ⟨c, rest, rfl⟩ := List.exists_cons_of_ne_nil hd.ne_nil
  have hplus : c ≠ '+' := by
    rintro rfl
    exact absurd (hd.digit '+' (by simp)) (by decide)
  unfold natural
  split
  · simp_all
  · simp_all
  · simp_all
  · exact extend_digits hd.digit hl

theorem digits_of_extend {limit value n : Nat} {t : Text} (h : extend limit value t = .ok n) :
    (∀ c ∈ t, c.isDigit = true) ∧ Nat.ofDigitChars 10 t value = n := by
  induction t generalizing value with
  | nil => exact ⟨by simp, Except.ok.inj h⟩
  | cons c rest ih =>
    simp only [extend] at h
    split_ifs at h with hd hl
    obtain ⟨hrest, hn⟩ := ih h
    exact ⟨List.forall_mem_cons.mpr ⟨hd, hrest⟩, hn⟩

/-- Naturals are read from digits, with or without a plus sign, that write a number within the
limit. -/
theorem natural_eq_ok_iff {limit n : Nat} {t : Text} :
    natural limit t = .ok n ↔
      ∃ digits, Json.Digits digits ∧ (t = digits ∨ t = '+' :: digits) ∧
        Nat.ofDigitChars 10 digits 0 = n ∧ n ≤ limit := by
  constructor
  · intro h
    have hle := natural_le h
    unfold natural at h
    split at h
    case h_1 => simp at h
    case h_2 => simp at h
    case h_3 rest hne =>
      obtain ⟨hdigits, hn⟩ := digits_of_extend h
      exact ⟨rest, ⟨fun hnil => hne (hnil ▸ rfl), hdigits⟩, .inr rfl, hn, hle⟩
    case h_4 hne _ _ =>
      obtain ⟨hdigits, hn⟩ := digits_of_extend h
      exact ⟨t, ⟨hne, hdigits⟩, .inl rfl, hn, hle⟩
  · rintro ⟨digits, hdigits, ht, rfl, hle⟩
    rcases ht with rfl | rfl
    · exact natural_digits hdigits hle
    · obtain ⟨c, rest, rfl⟩ := List.exists_cons_of_ne_nil hdigits.ne_nil
      exact extend_digits hdigits.digit hle

/-- A number that is printed is read again. -/
theorem natural?_decimal {limit n : Nat} (h : n ≤ limit) : natural? limit (decimal n) = some n := by
  have hvalue : Nat.ofDigitChars 10 (decimal n) 0 = n := Nat.ofDigitChars_ten_toDigits
  rw [natural?_eq_some_iff, natural_digits (Json.digits_decimal n) (hvalue.trans_le h), hvalue]

theorem integer?_signed {n : Int} (hlow : -signedRange ≤ n) (hhigh : n < signedRange) :
    integer? (signed n) = some n := by
  have hdigits := Json.digits_decimal n.natAbs
  have hvalue : Nat.ofDigitChars 10 (decimal n.natAbs) 0 = n.natAbs :=
    Nat.ofDigitChars_ten_toDigits
  obtain ⟨c, rest, hcons⟩ := List.exists_cons_of_ne_nil hdigits.ne_nil
  unfold signed
  split_ifs with hneg
  · have hread : extend signedRange 0 (decimal n.natAbs) = .ok n.natAbs := by
      rw [extend_digits hdigits.digit (by omega), hvalue]
    rw [hcons] at hread ⊢
    have habs : -(n.natAbs : Int) = n := by omega
    simp only [integer?, hread, Except.toOption]
    exact congrArg some habs
  · have hminus : c ≠ '-' := by
      rintro rfl
      exact absurd (hdigits.digit '-' (by simp [hcons])) (by decide)
    have hread : natural? (signedRange - 1) (decimal n.natAbs) = some n.natAbs :=
      natural?_decimal (by omega)
    rw [hcons] at hread ⊢
    unfold integer?
    split
    · simp_all
    · simp_all
    · rw [hread, Option.map_some]
      congr 1
      exact Int.natAbs_of_nonneg (not_lt.mp hneg)

theorem decimal_isWord (n : Nat) : Text.IsWord (decimal n) := (Json.digits_decimal n).isWord

theorem signed_isWord (n : Int) : Text.IsWord (signed n) := by
  unfold signed
  split
  · exact ⟨by simp, by simpa using ⟨by decide, (decimal_isWord _).2⟩⟩
  · exact decimal_isWord _

end Numeral
end TraceReport
