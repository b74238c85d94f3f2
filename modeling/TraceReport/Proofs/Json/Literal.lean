import Mathlib.Data.Rat.Defs
import Mathlib.Algebra.Field.Rat
import Mathlib.Data.List.TakeWhile
import Mathlib.Tactic.SplitIfs
import TraceReport.Json.Number

namespace TraceReport.Json

/-- A number as it stands in a document. -/
structure Literal where
  negative : Bool
  whole : Text
  /-- the digits after a point, if there is one -/
  part : Option Text
  /-- whether the exponent is negative, and its digits -/
  exponent : Option (Bool × Text)
  deriving DecidableEq, Repr

namespace Literal

def text (l : Literal) : Text :=
  (if l.negative then ['-'] else []) ++ l.whole ++ (l.part.elim [] fun d => '.' :: d) ++
    (l.exponent.elim [] fun (negative, d) => 'e' :: (if negative then '-' else '+') :: d)

def power (l : Literal) : Int :=
  l.exponent.elim 0 fun (negative, d) =>
    if negative then -(Nat.ofDigitChars 10 d 0 : Int) else Nat.ofDigitChars 10 d 0

/-- The number itself, nothing rounded. -/
def value (l : Literal) : ℚ :=
  let fraction := l.part.getD []
  let magnitude : ℚ :=
    Nat.ofDigitChars 10 (l.whole ++ fraction) 0 * 10 ^ (l.power - fraction.length)
  if l.negative then -magnitude else magnitude

end Literal

/-- Digits, of which there is at least one. -/
structure Digits (t : Text) : Prop where
  ne_nil : t ≠ []
  digit : ∀ c ∈ t, c.isDigit = true

/-- A literal has no leading zero before another digit, and digits wherever they are due. -/
structure Literal.Valid (l : Literal) : Prop where
  whole : Digits l.whole
  noZero : ∀ c rest, l.whole ≠ '0' :: c :: rest
  part : ∀ d ∈ l.part, Digits d
  exponent : ∀ e ∈ l.exponent, Digits e.2

/-- The text of an exponent, with its sign and digits. -/
inductive Exponent : Text → Option (Bool × Text) → Prop
  | none : Exponent [] none
  | unsigned {mark : Char} (hmark : mark = 'e' ∨ mark = 'E') (digits : Text) :
      Exponent (mark :: digits) (some (false, digits))
  | plus {mark : Char} (hmark : mark = 'e' ∨ mark = 'E') (digits : Text) :
      Exponent (mark :: '+' :: digits) (some (false, digits))
  | minus {mark : Char} (hmark : mark = 'e' ∨ mark = 'E') (digits : Text) :
      Exponent (mark :: '-' :: digits) (some (true, digits))

namespace Literal

/-- The text of a literal without its sign, with its exponent as it is written. -/
def magnitude (l : Literal) (exponent : Text) : Text :=
  l.whole ++ ((l.part.elim [] fun d => '.' :: d) ++ exponent)

/-- The texts of a literal, which differ in how its exponent is written. -/
def Written (l : Literal) (t : Text) : Prop :=
  ∃ exponent, Exponent exponent l.exponent ∧
    t = (if l.negative then ['-'] else []) ++ l.magnitude exponent

theorem written_text (l : Literal) : l.Written l.text := by
  refine ⟨l.exponent.elim [] fun (negative, d) => 'e' :: (if negative then '-' else '+') :: d,
    ?_, by simp [text, magnitude]⟩
  cases l.exponent with
  | none => exact .none
  | some e =>
    obtain ⟨negative, d⟩ := e
    cases negative with
    | true => exact .minus (.inl rfl) d
    | false => exact .plus (.inl rfl) d

end Literal

/-- The parts of a number without its sign. -/
def unsignedLiteral? (negative : Bool) (t : Text) : Option (Literal × Text) := do
  let (whole, t) ← wholeDigits? t
  let (part, t) ← fraction? t
  let (exponent, t) ← exponent? t
  return (⟨negative, whole, part, exponent⟩, t)

def literal? : Text → Option (Literal × Text)
  | '-' :: rest => unsignedLiteral? true rest
  | t => unsignedLiteral? false t

/-- A text with which no number goes on. -/
def Ends (rest : Text) : Prop :=
  ∀ c ∈ rest.head?, c.isDigit = false ∧ c ≠ '.' ∧ c ≠ 'e' ∧ c ≠ 'E'

theorem digits_append {w rest : Text} (hw : ∀ c ∈ w, c.isDigit = true)
    (hr : ∀ c ∈ rest.head?, c.isDigit = false) : digits (w ++ rest) = (w, rest) := by
  induction w with
  | nil =>
    cases rest with
    | nil => rfl
    | cons c rest => simp [digits, hr c rfl]
  | cons c w ih =>
    have hrest := ih fun d hd => hw d (List.mem_cons_of_mem _ hd)
    simp only [digits, Prod.mk.injEq] at hrest
    simp [digits, hw c List.mem_cons_self, hrest.1, hrest.2]

theorem wholeDigits?_append {w rest : Text} (hw : Digits w) (hz : ∀ c t, w ≠ '0' :: c :: t)
    (hr : ∀ c ∈ rest.head?, c.isDigit = false) : wholeDigits? (w ++ rest) = some (w, rest) := by
  rw [wholeDigits?, digits_append hw.digit hr]
  split
  · rename_i h
    exact absurd (congrArg Prod.fst h) hw.ne_nil
  · rename_i c t _ h
    exact absurd (congrArg Prod.fst h) (hz c t)
  · rfl

theorem fraction?_append {part : Option Text} {rest : Text} (hp : ∀ d ∈ part, Digits d)
    (hr : ∀ c ∈ rest.head?, c.isDigit = false ∧ c ≠ '.') :
    fraction? (part.elim [] (fun d => '.' :: d) ++ rest) = some (part, rest) := by
  cases part with
  | none =>
    cases rest with
    | nil => rfl
    | cons c rest =>
      have hdot : c ≠ '.' := (hr c rfl).2
      simp [fraction?, hdot]
  | some d =>
    have hd := hp d rfl
    simp only [Option.elim_some, List.cons_append, fraction?]
    rw [digits_append hd.digit fun c hc => (hr c hc).1]
    split
    · rename_i h
      exact absurd (congrArg Prod.fst h) hd.ne_nil
    · rename_i found rest' _ h
      cases h
      rfl

theorem exponentDigits?_append (negative : Bool) {d rest : Text} (hd : Digits d)
    (hr : ∀ c ∈ rest.head?, c.isDigit = false) :
    exponentDigits? negative (d ++ rest) = some (some (negative, d), rest) := by
  rw [exponentDigits?, digits_append hd.digit hr]
  split
  · rename_i h
    exact absurd (congrArg Prod.fst h) hd.ne_nil
  · rename_i found rest' _ h
    cases h
    rfl

theorem exponent?_append {exponent : Option (Bool × Text)} {t rest : Text}
    (he : ∀ e ∈ exponent, Digits e.2) (ht : Exponent t exponent) (hr : Ends rest) :
    exponent? (t ++ rest) = some (exponent, rest) := by
  have hrest : ∀ c ∈ rest.head?, c.isDigit = false := fun c hc => (hr c hc).1
  cases ht with
  | none =>
    cases rest with
    | nil => rfl
    | cons c rest =>
      obtain ⟨-, -, hlower, hupper⟩ := hr c rfl
      simp [exponent?, hlower, hupper]
  | unsigned hmark d =>
    obtain ⟨c, w, rfl⟩ := List.exists_cons_of_ne_nil (he _ rfl).ne_nil
    have hc : c.isDigit = true := (he _ rfl).digit c List.mem_cons_self
    have hminus : c ≠ '-' := by
      rintro rfl
      exact absurd hc (by decide)
    have hplus : c ≠ '+' := by
      rintro rfl
      exact absurd hc (by decide)
    have hdigits := exponentDigits?_append false (he _ rfl) hrest
    simp only [List.cons_append] at hdigits
    simp [exponent?, hmark, hminus, hplus, hdigits]
  | plus hmark d =>
    have hdigits := exponentDigits?_append false (he _ rfl) hrest
    simp only at hdigits
    simp [exponent?, hmark, hdigits]
  | minus hmark d =>
    have hdigits := exponentDigits?_append true (he _ rfl) hrest
    simp only at hdigits
    simp [exponent?, hmark, hdigits]

theorem unsignedLiteral?_magnitude {l : Literal} (hv : l.Valid) {exponent : Text}
    (he : Exponent exponent l.exponent) {rest : Text} (hr : Ends rest) :
    unsignedLiteral? l.negative (l.magnitude exponent ++ rest) = some (l, rest) := by
  obtain ⟨negative, whole, part, power⟩ := l
  have htail : ∀ c ∈ (exponent ++ rest).head?, c.isDigit = false ∧ c ≠ '.' := by
    have hmark {mark : Char} (h : mark = 'e' ∨ mark = 'E') : mark.isDigit = false ∧ mark ≠ '.' := by
      rcases h with rfl | rfl <;> decide
    cases he with
    | none => exact fun c hc => ⟨(hr c hc).1, (hr c hc).2.1⟩
    | unsigned h | plus h | minus h => exact fun c hc => Option.some.inj hc ▸ hmark h
  have hpoint : ∀ c ∈ (part.elim [] (fun d => '.' :: d) ++ (exponent ++ rest)).head?,
      c.isDigit = false := by
    cases part with
    | none => exact fun c hc => (htail c hc).1
    | some d =>
      intro c hc
      obtain rfl : '.' = c := Option.some.inj hc
      rfl
  have htext : (Literal.mk negative whole part power).magnitude exponent ++ rest =
      whole ++ (part.elim [] (fun d => '.' :: d) ++ (exponent ++ rest)) := by
    simp [Literal.magnitude]
  rw [htext, unsignedLiteral?, wholeDigits?_append hv.whole hv.noZero hpoint]
  change (fraction? _).bind _ = _
  rw [fraction?_append hv.part htail]
  change (exponent? _).bind _ = _
  rw [exponent?_append hv.exponent he hr]
  rfl

/-- A literal begins with a digit or a minus sign. -/
theorem Literal.Valid.head?_written {l : Literal} (hv : l.Valid) {t : Text} (ht : l.Written t) :
    ∃ c w, t = c :: w ∧ (c = '-' ∨ c.isDigit = true) := by
  obtain ⟨exponent, -, rfl⟩ := ht
  obtain ⟨c, w, hw⟩ := List.exists_cons_of_ne_nil hv.whole.ne_nil
  cases l.negative with
  | true => exact ⟨'-', _, rfl, .inl rfl⟩
  | false =>
    exact ⟨c, _, by simp [magnitude, hw]; rfl, .inr (hv.whole.digit c (hw ▸ List.mem_cons_self))⟩

theorem Literal.Valid.head? {l : Literal} (hv : l.Valid) :
    ∃ c t, l.text = c :: t ∧ (c = '-' ∨ c.isDigit = true) :=
  hv.head?_written l.written_text

/-- A text of a literal is read as the literal. -/
theorem literal?_written {l : Literal} (hv : l.Valid) {t rest : Text} (ht : l.Written t)
    (hr : Ends rest) : literal? (t ++ rest) = some (l, rest) := by
  obtain ⟨exponent, he, rfl⟩ := ht
  have hread := unsignedLiteral?_magnitude hv he hr
  obtain ⟨negative, whole, part, power⟩ := l
  cases negative with
  | true => exact hread
  | false =>
    rw [literal?]
    · exact hread
    · intro w hw
      obtain ⟨c, more, hwhole⟩ := List.exists_cons_of_ne_nil hv.whole.ne_nil
      have hc : c = '-' := by
        have hhead := congrArg List.head? hw
        simp only at hwhole
        simpa [Literal.magnitude, hwhole] using hhead
      have hdigit := hv.whole.digit c (hwhole ▸ List.mem_cons_self)
      rw [hc] at hdigit
      exact absurd hdigit (by decide)

theorem literal?_text {l : Literal} (hv : l.Valid) {rest : Text} (hr : Ends rest) :
    literal? (l.text ++ rest) = some (l, rest) :=
  literal?_written hv l.written_text hr

section Parts

variable {t w rest : Text}

theorem eq_append_of_digits (h : digits t = (w, rest)) :
    t = w ++ rest ∧ ∀ c ∈ w, c.isDigit = true := by
  obtain ⟨rfl, rfl⟩ := Prod.mk.inj h
  exact ⟨List.takeWhile_append_dropWhile.symm, fun c hc => List.mem_takeWhile_imp hc⟩

theorem eq_append_of_wholeDigits? (h : wholeDigits? t = some (w, rest)) :
    t = w ++ rest ∧ Digits w ∧ ∀ c more, w ≠ '0' :: c :: more := by
  unfold wholeDigits? at h
  split at h
  case h_1 => simp at h
  case h_2 => simp at h
  case h_3 hne hzero =>
    obtain ⟨ht, hw⟩ := eq_append_of_digits (Option.some.inj h)
    refine ⟨ht, ⟨?_, hw⟩, ?_⟩
    · rintro rfl
      exact hne rest (Option.some.inj h)
    · rintro c more rfl
      exact hzero c more rest (Option.some.inj h)

theorem eq_append_of_fraction? {part : Option Text} (h : fraction? t = some (part, rest)) :
    t = (part.elim [] fun d => '.' :: d) ++ rest ∧ ∀ d ∈ part, Digits d := by
  unfold fraction? at h
  split at h
  case h_1 more =>
    split at h
    case h_1 => simp at h
    case h_2 found left hne hdigits =>
      obtain ⟨rfl, rfl⟩ := Prod.mk.inj (Option.some.inj h)
      obtain ⟨rfl, hfound⟩ := eq_append_of_digits hdigits
      refine ⟨rfl, ?_⟩
      rintro d ⟨rfl⟩
      exact ⟨fun hnil => hne (by rw [hnil]), hfound⟩
  case h_2 =>
    obtain ⟨rfl, rfl⟩ := Prod.mk.inj (Option.some.inj h)
    exact ⟨rfl, by simp⟩

theorem eq_append_of_exponentDigits? {negative : Bool} {exponent : Option (Bool × Text)}
    (h : exponentDigits? negative t = some (exponent, rest)) :
    ∃ d, exponent = some (negative, d) ∧ t = d ++ rest ∧ Digits d := by
  unfold exponentDigits? at h
  split at h
  case h_1 => simp at h
  case h_2 found left hne hdigits =>
    obtain ⟨rfl, rfl⟩ := Prod.mk.inj (Option.some.inj h)
    obtain ⟨rfl, hfound⟩ := eq_append_of_digits hdigits
    exact ⟨found, rfl, rfl, fun hnil => hne (by rw [hnil]), hfound⟩

theorem eq_append_of_exponent? {exponent : Option (Bool × Text)}
    (h : exponent? t = some (exponent, rest)) :
    ∃ front, Exponent front exponent ∧ t = front ++ rest ∧ ∀ e ∈ exponent, Digits e.2 := by
  unfold exponent? at h
  split at h
  case h_1 mark more =>
    split_ifs at h with hmark
    case pos =>
      have hmark : mark = 'e' ∨ mark = 'E' := by simpa using hmark
      split at h
      case h_1 =>
        obtain ⟨d, rfl, rfl, hd⟩ := eq_append_of_exponentDigits? h
        exact ⟨_, .minus hmark d, rfl, by rintro e ⟨rfl⟩; exact hd⟩
      case h_2 =>
        obtain ⟨d, rfl, rfl, hd⟩ := eq_append_of_exponentDigits? h
        exact ⟨_, .plus hmark d, rfl, by rintro e ⟨rfl⟩; exact hd⟩
      case h_3 =>
        obtain ⟨d, rfl, rfl, hd⟩ := eq_append_of_exponentDigits? h
        exact ⟨_, .unsigned hmark d, rfl, by rintro e ⟨rfl⟩; exact hd⟩
    case neg =>
      obtain ⟨rfl, rfl⟩ := Prod.mk.inj (Option.some.inj h)
      exact ⟨[], .none, rfl, by simp⟩
  case h_2 =>
    obtain ⟨rfl, rfl⟩ := Prod.mk.inj (Option.some.inj h)
    exact ⟨[], .none, rfl, by simp⟩

theorem eq_append_of_unsignedLiteral? {negative : Bool} {l : Literal}
    (h : unsignedLiteral? negative t = some (l, rest)) :
    l.Valid ∧ l.negative = negative ∧
      ∃ exponent, Exponent exponent l.exponent ∧ t = l.magnitude exponent ++ rest := by
  unfold unsignedLiteral? at h
  obtain ⟨⟨whole, afterWhole⟩, hwhole, h⟩ := Option.bind_eq_some_iff.mp h
  obtain ⟨⟨part, afterPart⟩, hpart, h⟩ := Option.bind_eq_some_iff.mp h
  obtain ⟨⟨power, afterPower⟩, hpower, h⟩ := Option.bind_eq_some_iff.mp h
  obtain ⟨rfl, rfl⟩ := Prod.mk.inj (Option.some.inj h)
  obtain ⟨rfl, hdigits, hzero⟩ := eq_append_of_wholeDigits? hwhole
  obtain ⟨rfl, hfraction⟩ := eq_append_of_fraction? hpart
  obtain ⟨exponent, he, rfl, hexponent⟩ := eq_append_of_exponent? hpower
  exact ⟨⟨hdigits, hzero, hfraction, hexponent⟩, rfl, exponent, he, by simp [Literal.magnitude]⟩

/-- What is read as a literal is a text of it. -/
theorem eq_append_of_literal? {l : Literal} (h : literal? t = some (l, rest)) :
    l.Valid ∧ ∃ front, l.Written front ∧ t = front ++ rest := by
  unfold literal? at h
  split at h
  case h_1 =>
    obtain ⟨hv, hsign, exponent, he, rfl⟩ := eq_append_of_unsignedLiteral? h
    exact ⟨hv, '-' :: l.magnitude exponent, ⟨exponent, he, by rw [hsign]; rfl⟩, rfl⟩
  case h_2 =>
    obtain ⟨hv, hsign, exponent, he, rfl⟩ := eq_append_of_unsignedLiteral? h
    exact ⟨hv, l.magnitude exponent, ⟨exponent, he, by rw [hsign]; rfl⟩, rfl⟩

end Parts

theorem Literal.Valid.no_lineFeed {l : Literal} (hv : l.Valid) : '\n' ∉ l.text := by
  have digits {t : Text} (ht : Digits t) : '\n' ∉ t :=
    fun h => absurd (ht.digit _ h) (by decide)
  have hpart : '\n' ∉ l.part.elim [] fun d => '.' :: d := by
    cases hp : l.part with
    | none => simp
    | some d => simpa using digits (hv.part d hp)
  have hexponent : '\n' ∉ l.exponent.elim [] fun (negative, d) =>
      'e' :: (if negative then '-' else '+') :: d := by
    cases he : l.exponent with
    | none => simp
    | some e =>
      have hd := digits (hv.exponent e he)
      cases hs : e.1 <;> simpa [hs] using hd
  have hsign : '\n' ∉ if l.negative then ['-'] else [] := by
    cases l.negative <;> decide
  simp only [Literal.text, List.mem_append, not_or]
  exact ⟨⟨⟨hsign, digits hv.whole⟩, hpart⟩, hexponent⟩

end TraceReport.Json
