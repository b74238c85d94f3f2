import TraceReport.Proofs.Clock
import TraceReport.Proofs.Numeral
import TraceReport.Proofs.Record

namespace TraceReport

/-- A stamp in its form: between brackets the seconds, with or without a plus sign, and the digits
of a fraction. -/
structure Stamp where
  plus : Bool
  seconds : Text
  fraction : Text
  seconds_digits : Json.Digits seconds
  fraction_digits : Json.Digits fraction

namespace Stamp

def secondsText (s : Stamp) : Text := if s.plus then '+' :: s.seconds else s.seconds

def text (s : Stamp) : Text := '[' :: (s.secondsText ++ '.' :: s.fraction) ++ [']']

/-- The number of its seconds. -/
def value (s : Stamp) : Nat := Nat.ofDigitChars 10 s.seconds 0

/-- The first six digits of the fraction, filled up with zeros on the right. -/
def micros (s : Stamp) : Nat :=
  Nat.ofDigitChars 10 ((s.fraction ++ List.replicate 6 '0').take 6) 0

theorem point_not_mem (s : Stamp) : '.' ∉ s.secondsText := by
  have hdigits : '.' ∉ s.seconds := fun h => absurd (s.seconds_digits.digit '.' h) (by decide)
  unfold secondsText
  split
  · exact List.not_mem_cons_of_ne_of_not_mem (by decide) hdigits
  · exact hdigits

theorem natural?_secondsText {s : Stamp} (h : s.value ≤ Numeral.maxWord64) :
    Numeral.natural? Numeral.maxWord64 s.secondsText = some s.value := by
  rw [Numeral.natural?_eq_some_iff, Numeral.natural_eq_ok_iff]
  refine ⟨s.seconds, s.seconds_digits, ?_, rfl, h⟩
  unfold secondsText
  cases s.plus with
  | true => exact .inr rfl
  | false => exact .inl rfl

theorem fraction_all (s : Stamp) : s.fraction.all Char.isDigit = true :=
  List.all_eq_true.mpr s.fraction_digits.digit

/-- Digits that are missing count as zeros. -/
theorem fractionMicros_eq (s : Stamp) : Clock.fractionMicros s.fraction = s.micros := by
  have hpadded : (s.fraction ++ List.replicate 6 '0').take 6 =
      s.fraction.take 6 ++ List.replicate (6 - (s.fraction.take 6).length) '0' := by
    rw [List.take_append, List.take_replicate, List.length_take]
    congr 2
    omega
  rw [micros, hpadded, Nat.ofDigitChars_append, Nat.ofDigitChars_replicate_zero, Nat.mul_comm]
  rfl

end Stamp

namespace Clock

variable (clock : Clock) {stamp : Text}

/-- A stamp falls into its parts exactly when it has the form and its seconds fit 64 bits. -/
theorem parts?_eq_some_iff {seconds : Nat} {fraction : Text} :
    parts? stamp = some (seconds, fraction) ↔
      ∃ s : Stamp, stamp = s.text ∧ s.value = seconds ∧ s.fraction = fraction ∧
        seconds ≤ Numeral.maxWord64 := by
  constructor
  · intro h
    have hdigits := parts?_digits h
    unfold parts? at h
    cases hcut : (bracketed? stamp).bind (Text.cut? '.') with
    | none => simp [hcut] at h
    | some halves =>
      obtain ⟨front, back⟩ := halves
      rw [hcut] at h
      simp only at h
      split_ifs at h with hbad
      obtain ⟨n, hread, heq⟩ := Option.map_eq_some_iff.mp h
      cases heq
      rw [Numeral.natural?_eq_some_iff, Numeral.natural_eq_ok_iff] at hread
      obtain ⟨digits, hd, hform, hn, hle⟩ := hread
      obtain ⟨inner, hinner, hhalves⟩ := Option.bind_eq_some_iff.mp hcut
      obtain ⟨rfl, -⟩ := Text.eq_append_of_cut? hhalves
      have hstamp : stamp = '[' :: (front ++ '.' :: fraction) ++ [']'] := by
        unfold bracketed? at hinner
        split at hinner
        case h_1 rest =>
          split_ifs at hinner with hlast
          obtain ⟨body, rfl⟩ := List.getLast?_eq_some_iff.mp hlast
          rw [List.dropLast_concat] at hinner
          rw [Option.some.inj hinner]
          rfl
        case h_2 => simp at hinner
      have hfraction : Json.Digits fraction :=
        ⟨fun hnil => hbad (by simp [hnil]), List.all_eq_true.mp hdigits⟩
      rcases hform with rfl | rfl
      · exact ⟨⟨false, front, fraction, hd, hfraction⟩, hstamp, hn, rfl, hle⟩
      · exact ⟨⟨true, digits, fraction, hd, hfraction⟩, hstamp, hn, rfl, hle⟩
  · rintro ⟨s, rfl, rfl, rfl, hle⟩
    have hinner : bracketed? s.text = some (s.secondsText ++ '.' :: s.fraction) := by
      rw [Stamp.text, List.cons_append, bracketed?, if_pos List.getLast?_concat,
        List.dropLast_concat]
    have hgood : ¬(s.fraction.isEmpty || !s.fraction.all Char.isDigit) = true := by
      simp [s.fraction_all, s.fraction_digits.ne_nil]
    rw [parts?, hinner, Option.bind_some, Text.cut?_append s.point_not_mem]
    simp only [if_neg hgood, Stamp.natural?_secondsText hle, Option.map_some]

/-- The full seconds of trace time: those since the boot, if it is known and not later, and else the
low six digits. -/
def Elapsed (seconds whole : Nat) : Prop :=
  (∃ boot, clock.boot = some boot ∧ boot + whole = seconds) ∨
    (∀ boot, clock.boot = some boot → seconds < boot) ∧ whole = seconds % 10 ^ 6

theorem wholeSeconds_eq_iff {seconds whole : Nat} :
    clock.wholeSeconds seconds = whole ↔ clock.Elapsed seconds whole := by
  have hmillion : perSecond = 10 ^ 6 := rfl
  rw [wholeSeconds, Elapsed, hmillion]
  cases hboot : clock.boot with
  | none => simp [eq_comm]
  | some boot =>
    simp only [Option.some.injEq, exists_eq_left', forall_eq']
    split_ifs with hle
    · omega
    · omega

/-- A stamp is worth a time when it has the form, its seconds fit 64 bits, and so does the time, the
full seconds in microseconds and the fraction. -/
def Worth (stamp : Text) (time : Micros) : Prop :=
  ∃ s : Stamp, stamp = s.text ∧ s.value < 2 ^ 64 ∧
    ∃ whole, clock.Elapsed s.value whole ∧ time = whole * 10 ^ 6 + s.micros ∧ time < 2 ^ 64

theorem micros?_eq_some_iff {time : Micros} :
    clock.micros? stamp = some time ↔ clock.Worth stamp time := by
  have hlimit (n : Nat) : n ≤ Micros.limit ↔ n < 2 ^ 64 := Nat.lt_succ_iff.symm
  have hword (n : Nat) : n ≤ Numeral.maxWord64 ↔ n < 2 ^ 64 := Nat.lt_succ_iff.symm
  have hmillion : perSecond = 10 ^ 6 := rfl
  constructor
  · intro h
    unfold micros? at h
    cases hparts : parts? stamp with
    | none => simp [hparts] at h
    | some parts =>
      obtain ⟨seconds, fraction⟩ := parts
      simp only [hparts] at h
      split_ifs at h with hfits
      obtain rfl := Option.some.inj h
      obtain ⟨s, hstamp, rfl, rfl, hle⟩ := parts?_eq_some_iff.mp hparts
      rw [s.fractionMicros_eq, hmillion] at hfits ⊢
      exact ⟨s, hstamp, (hword _).mp hle, _, (wholeSeconds_eq_iff clock).mp rfl, rfl,
        (hlimit _).mp hfits⟩
  · rintro ⟨s, hstamp, hle, whole, helapsed, rfl, hfits⟩
    have hparts := parts?_eq_some_iff.mpr ⟨s, hstamp, rfl, rfl, (hword _).mpr hle⟩
    have hwhole := (wholeSeconds_eq_iff clock).mpr helapsed
    simp only [micros?, hparts, hwhole, s.fractionMicros_eq, hmillion]
    exact if_pos ((hlimit _).mpr hfits)

/-- On the way from the parts of a stamp to its time nothing leaves 64 bits, nothing falls below
zero and no character is cut. -/
structure StepsFit (seconds : Nat) (fraction : Text) : Prop where
  seconds_lt : seconds < 2 ^ 64
  /-- the cut after six bytes, or after all there are, falls between characters -/
  cut : Utf8.size (fraction.take fractionDigits) = min (Utf8.size fraction) fractionDigits
  /-- as many zeros are filled up as bytes are missing -/
  filled : Utf8.size (fraction.take fractionDigits) = (fraction.take fractionDigits).length
  kept_lt : Nat.ofDigitChars 10 (fraction.take fractionDigits) 0 < 10 ^ fractionDigits
  micros_lt : fractionMicros fraction < 10 ^ fractionDigits
  /-- the origin is not later than the stamp -/
  whole_add_origin : clock.wholeSeconds seconds + clock.originAt seconds = seconds

theorem size_digits {t : Text} (h : ∀ c ∈ t, c.isDigit = true) : Utf8.size t = t.length := by
  induction t with
  | nil => rfl
  | cons c rest ih =>
    obtain ⟨hc, hrest⟩ := List.forall_mem_cons.mp h
    have hrange : '0'.val ≤ c.val ∧ c.val ≤ '9'.val := by simpa [Char.isDigit] using hc
    have hascii : c.val ≤ 0x7f := UInt32.le_trans hrange.2 (by decide)
    have hone : c.utf8Size = 1 := if_pos hascii
    rw [Utf8.size, ih hrest, hone, List.length_cons, Nat.add_comm]

theorem stepsFit_of_parts? {seconds : Nat} {fraction : Text}
    (h : parts? stamp = some (seconds, fraction)) : clock.StepsFit seconds fraction := by
  obtain ⟨s, -, -, rfl, hle⟩ := parts?_eq_some_iff.mp h
  have hdigits := s.fraction_digits.digit
  have hkept : ∀ c ∈ s.fraction.take fractionDigits, c.isDigit = true := fun c hc =>
    hdigits c (List.mem_of_mem_take hc)
  have hmicros : fractionMicros s.fraction < 10 ^ fractionDigits := fractionMicros_lt s.fraction_all
  refine ⟨Nat.lt_succ_of_le hle, ?_, size_digits hkept, ?_, hmicros, ?_⟩
  · rw [size_digits hkept, size_digits hdigits, List.length_take, Nat.min_comm]
  · have hfilled : Nat.ofDigitChars 10 (s.fraction.take fractionDigits) 0 ≤
        fractionMicros s.fraction := Nat.le_mul_of_pos_right _ (Nat.pow_pos (by decide))
    exact Nat.lt_of_le_of_lt hfilled hmicros
  · rw [wholeSeconds_eq]
    exact Nat.sub_add_cancel (clock.originAt_le seconds)

end Clock

namespace Record

/-- Stamps are accepted and valued exactly: they have a time just when they are of the form and
worth it, no step on the way leaves its range, and a record that is long enough is read at the time
of its stamp, or refused for it with the stamp as it stands. -/
theorem stamps_valued (clock : Clock) (stamp : Text) :
    (∀ time, clock.micros? stamp = some time ↔ clock.Worth stamp time) ∧
    (∀ seconds fraction, Clock.parts? stamp = some (seconds, fraction) →
      clock.StepsFit seconds fraction) ∧
    ∀ dialect rest, dialect.minimum ≤ (stamp :: rest).length →
      (∀ record, read clock dialect (stamp :: rest) = .ok record →
        clock.Worth stamp record.header.time) ∧
      ∀ other, read clock dialect (stamp :: rest) = .error (.badTimestamp other) ↔
        other = stamp ∧ ∀ time, ¬clock.Worth stamp time := by
  refine ⟨fun time => clock.micros?_eq_some_iff, fun seconds fraction => clock.stepsFit_of_parts?,
    fun dialect rest hlen => ⟨fun record hread => ?_, fun other => ?_⟩⟩
  · have hstamp : stamp = record.header.stamp := Option.some.inj (head?_of_read hread)
    have htime := micros?_of_read hread
    rw [← hstamp] at htime
    exact clock.micros?_eq_some_iff.mp htime
  · obtain ⟨enough, pidToken, tidToken, payload, record, hmap, -⟩ := read_eq_map clock hlen
    have hnone : clock.micros? stamp = none ↔ ∀ time, ¬clock.Worth stamp time := by
      simp only [Option.eq_none_iff_forall_ne_some, ne_eq, clock.micros?_eq_some_iff]
    rw [hmap, map_eq_error_iff, Header.read_eq_badTimestamp_iff, hnone]

/-- Tokens of a switch after its stamp, all of them zero. -/
def zeroTokens : List Text := List.replicate 16 ['0']

/-- A stamp with a plus sign and a short fraction, and one without a fraction. -/
theorem stamps_valued_since_boot :
    Dialect.minimum .kernel ≤ ("[+12.5]".toList :: zeroTokens).length ∧
    Clock.parts? "[+12.5]".toList = some (12, "5".toList) ∧
    Clock.StepsFit ⟨some 2⟩ 12 "5".toList ∧
    Clock.Worth ⟨some 2⟩ "[+12.5]".toList 10500000 ∧
    (∃ record, read ⟨some 2⟩ .kernel ("[+12.5]".toList :: zeroTokens) = .ok record ∧
      Clock.Worth ⟨some 2⟩ "[+12.5]".toList record.header.time) ∧
    read ⟨some 2⟩ .kernel ("[12]".toList :: zeroTokens) = .error (.badTimestamp "[12]".toList) := by
  have hlen : Dialect.minimum .kernel ≤ ("[+12.5]".toList :: zeroTokens).length := by decide
  have hparts : Clock.parts? "[+12.5]".toList = some (12, "5".toList) := by decide
  obtain ⟨hworth, hsteps, hread⟩ := stamps_valued ⟨some 2⟩ "[+12.5]".toList
  obtain ⟨hworth', -, hread'⟩ := stamps_valued ⟨some 2⟩ "[12]".toList
  obtain ⟨record, hrecord⟩ :
      ∃ record, read ⟨some 2⟩ .kernel ("[+12.5]".toList :: zeroTokens) = .ok record :=
    exists_ok_of_isOk (by decide)
  have hnone : ∀ time, ¬Clock.Worth ⟨some 2⟩ "[12]".toList time := by
    intro time h
    have hsome := (hworth' time).mpr h
    have hbad : Clock.micros? ⟨some 2⟩ "[12]".toList = none := by decide
    exact Option.some_ne_none time (hsome.symm.trans hbad)
  exact ⟨hlen, hparts, hsteps _ _ hparts, (hworth _).mp (by decide),
    ⟨record, hrecord, (hread .kernel zeroTokens hlen).1 record hrecord⟩,
    ((hread' .kernel zeroTokens hlen).2 _).mpr ⟨rfl, hnone⟩⟩

end Record
end TraceReport
