import Mathlib.Tactic.SplitIfs
import TraceReport.Numeral

namespace TraceReport

section

variable {ε α β : Type}

theorem bind_eq_ok_iff {x : Except ε α} {f : α → Except ε β} {b : β} :
    x >>= f = .ok b ↔ ∃ a, x = .ok a ∧ f a = .ok b := by
  cases x with
  | error e => simp [bind, Except.bind]
  | ok a => simp [bind, Except.bind]

theorem bind_eq_error_iff {x : Except ε α} {f : α → Except ε β} {e : ε} :
    x >>= f = .error e ↔ x = .error e ∨ ∃ a, x = .ok a ∧ f a = .error e := by
  cases x with
  | error e => simp [bind, Except.bind]
  | ok a => simp [bind, Except.bind]

theorem map_eq_ok_iff {x : Except ε α} {f : α → β} {b : β} :
    x.map f = .ok b ↔ ∃ a, x = .ok a ∧ f a = b := by
  cases x with
  | error e => simp [Except.map]
  | ok a => simp [Except.map]

theorem map_eq_error_iff {x : Except ε α} {f : α → β} {e : ε} :
    x.map f = .error e ↔ x = .error e := by
  cases x with
  | error e => simp [Except.map]
  | ok a => simp [Except.map]

theorem map_bind_ok {γ : Type} (x : Except ε α) (f : α → β) (g : β → γ) :
    (x >>= fun a => .ok (f a)).map g = x.map fun a => g (f a) := by
  cases x with
  | error e => rfl
  | ok a => rfl

theorem toOption_eq_some_iff {x : Except ε α} {a : α} : x.toOption = some a ↔ x = .ok a := by
  cases x with
  | error e => simp [Except.toOption]
  | ok b => simp [Except.toOption]

theorem exists_ok_of_isOk {x : Except ε α} (h : x.isOk) : ∃ a, x = .ok a := by
  cases x with
  | error e => simp [Except.isOk, Except.toBool] at h
  | ok a => exact ⟨a, rfl⟩

end

namespace Numeral

theorem extend_le {limit value n : Nat} {t : Text} (hv : value ≤ limit)
    (h : extend limit value t = .ok n) : n ≤ limit := by
  induction t generalizing value with
  | nil =>
    cases h
    exact hv
  | cons c rest ih =>
    simp only [extend] at h
    split_ifs at h with hd hl
    exact ih hl h

theorem natural_le {limit n : Nat} {t : Text} (h : natural limit t = .ok n) : n ≤ limit := by
  unfold natural at h
  split at h
  · cases h
  · cases h
  · exact extend_le (Nat.zero_le _) h
  · exact extend_le (Nat.zero_le _) h

theorem natural?_eq_some_iff {limit n : Nat} {t : Text} :
    natural? limit t = some n ↔ natural limit t = .ok n := by
  unfold natural?
  cases natural limit t with
  | error e => simp [Except.toOption]
  | ok m => simp [Except.toOption]

end Numeral
end TraceReport
