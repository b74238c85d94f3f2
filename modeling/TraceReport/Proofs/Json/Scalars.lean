import TraceReport.Proofs.Json.Grammar
import TraceReport.Proofs.Json.Strings
import TraceReport.Proofs.Numeral

namespace TraceReport.Json

section Numbers

/-- All digits are taken in exactly when the number they write fits 64 bits. -/
theorem absorb_eq_nil_iff {value n : Nat} {t : Text} (hd : ∀ c ∈ t, c.isDigit = true)
    (hv : value ≤ Numeral.maxWord64) :
    absorb value t = (n, []) ↔ Nat.ofDigitChars 10 t value = n ∧ n ≤ Numeral.maxWord64 := by
  induction t generalizing value with
  | nil =>
    rw [absorb, Nat.ofDigitChars_nil]
    constructor
    · rintro ⟨rfl⟩
      exact ⟨rfl, hv⟩
    · rintro ⟨rfl, -⟩
      rfl
  | cons c rest ih =>
    have hnext : 10 * value + (c.toNat - '0'.toNat) = 10 * value + Numeral.digitValue c := rfl
    rw [absorb, Nat.ofDigitChars_cons, hnext]
    split_ifs with hfits
    · exact ih (fun d hm => hd d (List.mem_cons_of_mem _ hm)) hfits
    · have hgrows := Numeral.le_ofDigitChars rest (10 * value + Numeral.digitValue c)
      refine iff_of_false (by simp) ?_
      rintro ⟨rfl, hle⟩
      exact hfits (hgrows.trans hle)

/-- An integer is read exactly where 64 bits hold it, with or without a sign. -/
theorem int?_eq_some_iff {negative : Bool} {whole : Text} {n : Int} (hd : Digits whole) :
    int? negative whole = some n ↔
      (if negative then -(Nat.ofDigitChars 10 whole 0 : Int) else Nat.ofDigitChars 10 whole 0) = n ∧
        -2 ^ 63 ≤ n ∧ n < 2 ^ 64 ∧ (negative = true → n ≠ 0) := by
  have hword : Numeral.maxWord64 = 2 ^ 64 - 1 := rfl
  have hrange : Numeral.signedRange = 2 ^ 63 := rfl
  have habsorb (m : Nat) := absorb_eq_nil_iff (n := m) hd.digit (Nat.zero_le Numeral.maxWord64)
  unfold int?
  split
  case h_1 m heq =>
    obtain ⟨hm, hle⟩ := (habsorb m).mp heq
    rw [hm]
    cases negative with
    | false =>
      simp only [Bool.not_false, if_true, Option.some.injEq, Bool.false_eq_true, if_false,
        false_implies, and_true]
      omega
    | true =>
      simp only [Bool.not_true, Bool.false_eq_true, if_false, if_true, forall_const]
      split_ifs with hfits
      · simp only [Bool.and_eq_true, decide_eq_true_eq] at hfits
        simp only [Option.some.injEq]
        omega
      · simp only [Bool.and_eq_true, decide_eq_true_eq] at hfits
        simp only [false_iff]
        omega
  case h_2 hmore =>
    simp only [reduceCtorEq, false_iff]
    rintro ⟨hn, hlow, hhigh, -⟩
    refine hmore (Nat.ofDigitChars 10 whole 0) ((habsorb _).mpr ⟨rfl, ?_⟩)
    cases negative with
    | false =>
      simp only [Bool.false_eq_true, if_false] at hn
      omega
    | true =>
      simp only [if_true] at hn
      omega

/-- The number of a literal without fraction and exponent. -/
theorem Literal.value_of_whole {l : Literal} (hp : l.part = none) (he : l.exponent = none) :
    l.value = ((if l.negative then -(Nat.ofDigitChars 10 l.whole 0 : Int)
      else Nat.ofDigitChars 10 l.whole 0 : Int) : ℚ) := by
  cases hn : l.negative <;> simp [Literal.value, Literal.power, hp, he, hn]

/-- The value that is read of a literal. -/
def Literal.json? (l : Literal) : Option Json :=
  match if l.part.isNone && l.exponent.isNone then int? l.negative l.whole else none with
  | some n => some (.int n)
  | none => (real? l.whole l.part l.exponent).map fun x => .real (if l.negative then x.neg else x)

theorem Literal.isInteger_iff {l : Literal} (hv : l.Valid) {n : Int} :
    l.IsInteger n ↔ l.part = none ∧ l.exponent = none ∧ int? l.negative l.whole = some n := by
  constructor
  · intro h
    have hvalue := h.value
    rw [value_of_whole h.part h.exponent, Int.cast_inj] at hvalue
    exact ⟨h.part, h.exponent, (int?_eq_some_iff hv.whole).mpr ⟨hvalue, h.low, h.high, h.sign⟩⟩
  · rintro ⟨hp, he, hint⟩
    obtain ⟨hvalue, hlow, hhigh, hsign⟩ := (int?_eq_some_iff hv.whole).mp hint
    exact ⟨hp, he, by rw [value_of_whole hp he, hvalue], hlow, hhigh, hsign⟩

theorem Literal.json?_eq_some_iff {l : Literal} (hv : l.Valid) {j : Json} :
    l.json? = some j ↔ l.Reads j := by
  unfold json?
  have hwhole : (l.part.isNone && l.exponent.isNone) = true ↔
      l.part = none ∧ l.exponent = none := by
    simp
  split
  case h_1 n heq =>
    obtain ⟨hnone, hint⟩ := Option.ite_none_right_eq_some.mp heq
    obtain ⟨hp, he⟩ := hwhole.mp hnone
    have hinteger : l.IsInteger n := (isInteger_iff hv).mpr ⟨hp, he, hint⟩
    constructor
    · rintro ⟨rfl⟩
      exact .int hinteger
    · intro h
      cases h with
      | int h =>
        have hsame := Option.some.inj (hint.symm.trans ((isInteger_iff hv).mp h).2.2)
        rw [hsame]
      | real h hx => exact absurd hinteger (h n)
  case h_2 heq =>
    have hnot : ∀ n, ¬l.IsInteger n := by
      intro n h
      obtain ⟨hp, he, hint⟩ := (isInteger_iff hv).mp h
      rw [if_pos (hwhole.mpr ⟨hp, he⟩), hint] at heq
      simp at heq
    rw [Option.map_eq_some_iff]
    constructor
    · rintro ⟨x, hx, rfl⟩
      exact .real hnot hx
    · intro h
      cases h with
      | int h => exact absurd h (hnot _)
      | real h hx => exact ⟨_, hx, rfl⟩

theorem unsigned?_eq (negative : Bool) (t : Text) :
    unsigned? negative t = (unsignedLiteral? negative t).bind fun (l, rest) =>
      l.json?.map fun j => (j, rest) := by
  unfold unsigned? unsignedLiteral?
  cases wholeDigits? t with
  | none => rfl
  | some found =>
    obtain ⟨whole, t⟩ := found
    simp only [Option.bind_eq_bind, Option.bind_some]
    cases fraction? t with
    | none => rfl
    | some found =>
      obtain ⟨part, t⟩ := found
      simp only [Option.bind_some]
      cases exponent? t with
      | none => rfl
      | some found =>
        obtain ⟨exponent, t⟩ := found
        simp only [Option.bind_some, Literal.json?, pure]
        generalize (if part.isNone && exponent.isNone then int? negative whole else none) = whole?
        cases whole? with
        | some n => rfl
        | none => cases real? whole part exponent <;> rfl

theorem number?_eq (t : Text) :
    number? t = (literal? t).bind fun (l, rest) => l.json?.map fun j => (j, rest) := by
  unfold number?
  split
  case h_1 rest => exact unsigned?_eq true rest
  case h_2 hminus =>
    rw [literal?]
    · exact unsigned?_eq false t
    · exact hminus

variable {t rest : Text} {j : Json}

theorem number?_written {l : Literal} (hv : l.Valid) (ht : l.Written t) (hj : l.Reads j)
    (hr : Ends rest) : number? (t ++ rest) = some (j, rest) := by
  have hvalue := (Literal.json?_eq_some_iff hv).mpr hj
  rw [number?_eq, literal?_written hv ht hr]
  simp only [Option.bind_some, hvalue, Option.map_some]

theorem eq_append_of_number? (h : number? t = some (j, rest)) :
    ∃ l front, Literal.Valid l ∧ l.Written front ∧ l.Reads j ∧ t = front ++ rest := by
  rw [number?_eq] at h
  obtain ⟨⟨l, left⟩, hl, h⟩ := Option.bind_eq_some_iff.mp h
  obtain ⟨found, hfound, h⟩ := Option.map_eq_some_iff.mp h
  obtain ⟨rfl, rfl⟩ := Prod.mk.inj h
  obtain ⟨hv, front, hfront, rfl⟩ := eq_append_of_literal? hl
  exact ⟨l, front, hv, hfront, (Literal.json?_eq_some_iff hv).mp hfound, rfl⟩

end Numbers

section Strings

variable {high : Option Nat} {done t s rest : Text}

/-- Four digits are read as their number, and decide what a string may go on with. -/
theorem string?_quad {quad : Text} {n : Nat} (h : Quad quad n) (t : Text) :
    string? (.hex high 4 0) done (quad ++ t) =
      (unit? high n).bind fun (next, found) => string? next (found.toList ++ done) t := by
  cases h with
  | digits ha hb hc hd =>
    simp only [List.cons_append, List.nil_append, string?, ha, hb, hc, hd]
    simp only [Nat.reduceLeDiff, if_false, Nat.reduceSub, Nat.mul_zero, Nat.zero_add, le_refl,
      if_true]
    cases unit? high _ with
    | none => rfl
    | some found => rfl

theorem cons_of_hex {left value : Nat} {r : Text × Text}
    (h : string? (.hex high left value) done t = some r) :
    ∃ c digit later, t = c :: later ∧ hexValue? c = some digit ∧
      (1 < left → string? (.hex high (left - 1) (16 * value + digit)) done later = some r) := by
  cases t with
  | nil => simp [string?] at h
  | cons c later =>
    simp only [string?] at h
    cases hdigit : hexValue? c with
    | none => simp [hdigit] at h
    | some digit =>
      refine ⟨c, digit, later, rfl, hdigit, fun hleft => ?_⟩
      simpa only [hdigit, if_neg (Nat.not_le.mpr hleft)] using h

/-- Where four digits are due, four digits stand. -/
theorem exists_quad {r : Text × Text} (h : string? (.hex high 4 0) done t = some r) :
    ∃ quad n later, t = quad ++ later ∧ Quad quad n := by
  obtain ⟨a, i, _, rfl, ha, h⟩ := cons_of_hex h
  obtain ⟨b, j, _, rfl, hb, h⟩ := cons_of_hex (h (by decide))
  obtain ⟨c, k, _, rfl, hc, h⟩ := cons_of_hex (h (by decide))
  obtain ⟨d, l, later, rfl, hd, -⟩ := cons_of_hex (h (by decide))
  exact ⟨[a, b, c, d], _, later, rfl, .digits ha hb hc hd⟩

theorem string?_unicode (t : Text) :
    string? .character done ('\\' :: 'u' :: t) = string? (.hex none 4 0) done t := by
  rw [string?, if_neg (by decide), if_pos rfl, string?, if_pos rfl]

/-- The second half of a pair is introduced like the first. -/
theorem string?_half (m : Nat) (t : Text) :
    string? (.backslash m) done ('\\' :: 'u' :: t) = string? (.hex (some m) 4 0) done t := by
  rw [string?, if_pos rfl, string?, if_pos rfl]

theorem escaped?_u : escaped? 'u' = none := rfl

/-- What stands between quotes is read as the characters that it spells. -/
theorem string?_characters (h : Characters t s) (done : Text) :
    string? .character done (t ++ '"' :: rest) = some (done.reverse ++ s, rest) := by
  induction h generalizing done with
  | nil => rw [List.nil_append, string?, if_pos rfl, List.append_nil]
  | plain hquote hslash hcontrol hrest ih =>
    rw [List.cons_append, string?_plain _ _ hquote hslash (Nat.not_lt.mpr hcontrol), ih]
    simp
  | @escape mark c t s hmark hrest ih =>
    have hu : mark ≠ 'u' := by
      rintro rfl
      rw [escaped?_u] at hmark
      simp at hmark
    rw [List.cons_append, List.cons_append, string?_escape _ _ hu hmark, ih]
    simp
  | @unit quad t s n hquad hhigh hlow hrest ih =>
    have htext : '\\' :: 'u' :: quad ++ t ++ '"' :: rest =
        '\\' :: 'u' :: (quad ++ (t ++ '"' :: rest)) := by simp
    have hunit : unit? none n = some (.character, some (Char.ofNat n)) := by
      simp [unit?, hhigh, hlow]
    rw [htext, string?_unicode, string?_quad hquad, hunit]
    simp [ih]
  | @pair quad quad' t s m n hquad hhigh hquad' hlow hrest ih =>
    have htext : '\\' :: 'u' :: quad ++ '\\' :: 'u' :: quad' ++ t ++ '"' :: rest =
        '\\' :: 'u' :: (quad ++ '\\' :: 'u' :: (quad' ++ (t ++ '"' :: rest))) := by simp
    have hfirst : unit? none m = some (.backslash m, none) := by simp [unit?, hhigh]
    have hsecond : unit? (some m) n = some (.character,
        some (Char.ofNat (0x10000 + 0x400 * (m - 0xD800) + (n - 0xDC00)))) := by simp [unit?, hlow]
    rw [htext, string?_unicode, string?_quad hquad, hfirst, Option.bind_some]
    simp only [Option.toList_none, List.nil_append]
    rw [string?_half, string?_quad hquad', hsecond]
    simp [ih]

theorem exists_half {m : Nat} {r : Text × Text} (h : string? (.backslash m) done t = some r) :
    ∃ later, t = '\\' :: 'u' :: later ∧ string? (.hex (some m) 4 0) done later = some r := by
  match t with
  | [] => simp [string?] at h
  | [c] =>
    rw [string?] at h
    split_ifs at h with hc
    simp [string?] at h
  | c :: d :: later =>
    rw [string?] at h
    split_ifs at h with hc
    rw [string?] at h
    split_ifs at h with hd
    exact ⟨later, by rw [hc, hd], h⟩

/-- After a backslash one character is spelled, in one of the three ways. -/
theorem exists_escape {r : Text × Text} (h : string? .escape done t = some r) :
    ∃ front c later, t = front ++ later ∧ string? .character (c :: done) later = some r ∧
      ∀ text s, Characters text s → Characters ('\\' :: front ++ text) (c :: s) := by
  cases t with
  | nil => simp [string?] at h
  | cons mark more =>
    rw [string?] at h
    split_ifs at h with hu
    · obtain ⟨quad, n, later, rfl, hquad⟩ := exists_quad h
      rw [string?_quad hquad] at h
      obtain ⟨⟨next, found⟩, hunit, h⟩ := Option.bind_eq_some_iff.mp h
      simp only [unit?] at hunit
      split_ifs at hunit with hhigh hlow
      · obtain ⟨rfl, rfl⟩ := Prod.mk.inj (Option.some.inj hunit)
        obtain ⟨second, rfl, hsecond⟩ := exists_half h
        obtain ⟨quad', m, later, rfl, hquad'⟩ := exists_quad hsecond
        rw [string?_quad hquad'] at hsecond
        obtain ⟨⟨next, found⟩, hunit', hlater⟩ := Option.bind_eq_some_iff.mp hsecond
        simp only [unit?] at hunit'
        split_ifs at hunit' with hlow
        obtain ⟨rfl, rfl⟩ := Prod.mk.inj (Option.some.inj hunit')
        refine ⟨'u' :: quad ++ '\\' :: 'u' :: quad', _, later, by simp [hu], hlater,
          fun text s hs => ?_⟩
        have hpair := Characters.pair hquad hhigh hquad' hlow hs
        simpa using hpair
      · obtain ⟨rfl, rfl⟩ := Prod.mk.inj (Option.some.inj hunit)
        refine ⟨'u' :: quad, _, later, by simp [hu], h, fun text s hs => ?_⟩
        exact .unit hquad (Bool.eq_false_iff.mpr hhigh) (Bool.eq_false_iff.mpr hlow) hs
    · cases hmark : escaped? mark with
      | none => simp [hmark] at h
      | some c =>
        rw [hmark] at h
        exact ⟨[mark], c, more, rfl, h, fun text s hs => .escape hmark hs⟩

/-- What is read up to a quote spells the characters that are read. -/
theorem exists_characters {read : Text} (h : string? .character done t = some (read, rest)) :
    ∃ text s, t = text ++ '"' :: rest ∧ Characters text s ∧ read = done.reverse ++ s := by
  induction hlen : t.length using Nat.strong_induction_on generalizing t done with
  | _ length ih =>
    cases t with
    | nil => simp [string?] at h
    | cons c later =>
      rw [string?] at h
      split_ifs at h with hquote hslash hcontrol
      · obtain ⟨rfl, rfl⟩ := Prod.mk.inj (Option.some.inj h)
        exact ⟨[], [], by rw [hquote]; rfl, .nil, by simp⟩
      · obtain ⟨front, e, later, rfl, h, hfront⟩ := exists_escape h
        have hshorter : later.length < length := by
          rw [← hlen, List.length_cons, List.length_append]
          omega
        obtain ⟨text, s, rfl, htext, rfl⟩ := ih _ hshorter h rfl
        exact ⟨'\\' :: front ++ text, e :: s, by simp [hslash], hfront text s htext, by simp⟩
      · obtain ⟨text, s, rfl, htext, rfl⟩ := ih _ (by simp [← hlen]) h rfl
        exact ⟨c :: text, c :: s, rfl, .plain hquote hslash (Nat.not_lt.mp hcontrol) htext, by simp⟩

end Strings

end TraceReport.Json
