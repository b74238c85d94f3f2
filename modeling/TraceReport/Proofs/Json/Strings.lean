import Mathlib.Tactic.SplitIfs
import TraceReport.Json.Reader
import TraceReport.Json.Writer

namespace TraceReport.Json

theorem hexValue?_digitChar {n : Nat} (h : n < 16) : hexValue? (Nat.digitChar n) = some n := by
  have all : ∀ n : Fin 16, hexValue? (Nat.digitChar n) = some n.val := by decide
  exact all ⟨n, h⟩

section

variable (done rest : Text)

/-- A two-character escape stands for one character. -/
theorem string?_escape {mark c : Char} (hmark : mark ≠ 'u') (hc : escaped? mark = some c) :
    string? .character done ('\\' :: mark :: rest) = string? .character (c :: done) rest := by
  rw [string?, if_neg (by decide), if_pos rfl, string?, if_neg hmark, hc]

/-- The four digits after `u` give a control character. -/
theorem string?_control {c : Char} (h : c.toNat < 0x20) :
    string? .character done ("\\u00".toList ++ hexPair c.toNat ++ rest) =
      string? .character (c :: done) rest := by
  have hhigh := hexValue?_digitChar (n := c.toNat / 16) (by omega)
  have hlow := hexValue?_digitChar (n := c.toNat % 16) (by omega)
  have hzero : hexValue? '0' = some 0 := rfl
  have hvalue : 16 * (16 * (16 * (16 * 0 + 0) + 0) + c.toNat / 16) + c.toNat % 16 = c.toNat := by
    omega
  have hunit : unit? none c.toNat = some (.character, some c) := by
    have h1 : isHighSurrogate c.toNat = false := by simp [isHighSurrogate]; omega
    have h2 : isLowSurrogate c.toNat = false := by simp [isLowSurrogate]; omega
    simp [unit?, h1, h2]
  change string? .character done ('\\' :: 'u' :: '0' :: '0' :: Nat.digitChar (c.toNat / 16) ::
    Nat.digitChar (c.toNat % 16) :: rest) = _
  rw [string?, if_neg (by decide), if_pos rfl, string?, if_pos rfl]
  simp only [string?, hzero, hhigh, hlow, hvalue, hunit]
  rfl

theorem string?_plain {c : Char} (hquote : c ≠ '"') (hslash : c ≠ '\\') (h : ¬c.toNat < 0x20) :
    string? .character done (c :: rest) = string? .character (c :: done) rest := by
  rw [string?, if_neg hquote, if_neg hslash, if_neg h]

/-- However a character is escaped, it is read as itself. -/
theorem string?_escapeChar (c : Char) :
    string? .character done (escapeChar c ++ rest) = string? .character (c :: done) rest := by
  unfold escapeChar
  split_ifs with h1 h2 h3 h4 h5 h6 h7 h8
  · exact h1 ▸ string?_escape done rest (by decide) rfl
  · exact h2 ▸ string?_escape done rest (by decide) rfl
  · exact h3 ▸ string?_escape done rest (by decide) rfl
  · exact h4 ▸ string?_escape done rest (by decide) rfl
  · exact h5 ▸ string?_escape done rest (by decide) rfl
  · exact h6 ▸ string?_escape done rest (by decide) rfl
  · exact h7 ▸ string?_escape done rest (by decide) rfl
  · exact string?_control done rest h8
  · exact string?_plain done rest h1 h2 h8

theorem string?_flatMap (t : Text) :
    string? .character done (t.flatMap escapeChar ++ '"' :: rest) =
      some (done.reverse ++ t, rest) := by
  induction t generalizing done with
  | nil => rw [List.flatMap_nil, List.nil_append, string?, if_pos rfl, List.append_nil]
  | cons c t ih =>
    rw [List.flatMap_cons, List.append_assoc, string?_escapeChar, ih, List.reverse_cons,
      List.append_assoc, List.singleton_append]

/-- The text of a string is read as the string, and not a character further. -/
theorem string?_stringText (t : Text) :
    ∃ quoted, stringText t ++ rest = '"' :: quoted ∧
      string? .character [] quoted = some (t, rest) := by
  refine ⟨t.flatMap escapeChar ++ '"' :: rest, ?_, string?_flatMap [] rest t⟩
  simp [stringText]

end

/-- No text of a string breaks its line. -/
theorem escapeChar_no_lineFeed (c : Char) : '\n' ∉ escapeChar c := by
  unfold escapeChar
  split_ifs with h1 h2 h3 h4 h5 h6 h7 h8
  all_goals try decide
  · have hdigit : ∀ n : Fin 16, Nat.digitChar n ≠ '\n' := by decide
    have hhigh := hdigit ⟨c.toNat / 16, by omega⟩
    have hlow := hdigit ⟨c.toNat % 16, by omega⟩
    simp [hexPair, hhigh.symm, hlow.symm]
  · simpa using fun h => h5 h.symm

theorem stringText_no_lineFeed (t : Text) : '\n' ∉ stringText t := by
  simp only [stringText, List.cons_append, List.mem_cons, List.mem_append, List.mem_flatMap,
    List.not_mem_nil, or_false, not_or]
  refine ⟨by decide, ?_, by decide⟩
  rintro ⟨c, -, hc⟩
  exact escapeChar_no_lineFeed c hc

end TraceReport.Json
