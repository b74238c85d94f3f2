import Mathlib.Tactic.SplitIfs
import TraceReport.Text.Utf8

namespace TraceReport.Utf8

/-- A byte that goes on with a character, carrying six bits of it. -/
def tail (n : Nat) : UInt8 := UInt8.ofNat (n % 64 + 0x80)

theorem tail_toNat (n : Nat) : (tail n).toNat = n % 64 + 0x80 := by
  have h : n % 64 + 0x80 < 256 := by omega
  rw [tail, UInt8.toNat_ofNat', Nat.mod_eq_of_lt h]

theorem start_ascii {n : Nat} (h : n < 0x80) :
    start (UInt8.ofNat n) = ([some (Char.ofNat n)], none) := by
  have hn : (UInt8.ofNat n).toNat = n := by
    rw [UInt8.toNat_ofNat', Nat.mod_eq_of_lt (by omega)]
  have hb : UInt8.ofNat n < 0x80 := by
    rw [UInt8.lt_iff_toNat_lt, hn]
    exact h
  rw [start, if_pos hb, hn]

theorem start_two {n : Nat} (low : 2 ≤ n) (high : n < 32) :
    start (UInt8.ofNat (n + 0xC0)) = ([], some ⟨n, 1, tailLow, tailHigh⟩) := by
  have all : ∀ n : Fin 32, 2 ≤ n.val →
      start (UInt8.ofNat (n + 0xC0)) = ([], some ⟨n, 1, tailLow, tailHigh⟩) := by decide
  exact all ⟨n, high⟩ low

/-- The second byte of three leaves out the overlong forms and the surrogates. -/
theorem start_three {n : Nat} (high : n < 16) :
    start (UInt8.ofNat (n + 0xE0)) =
      ([], some ⟨n, 2, if n = 0 then 0xA0 else tailLow, if n = 13 then 0x9F else tailHigh⟩) := by
  have all : ∀ n : Fin 16, start (UInt8.ofNat (n + 0xE0)) =
      ([], some ⟨n, 2, if n.val = 0 then 0xA0 else tailLow,
        if n.val = 13 then 0x9F else tailHigh⟩) := by decide
  exact all ⟨n, high⟩

/-- The second byte of four leaves out the overlong forms and what no character has. -/
theorem start_four {n : Nat} (high : n < 5) :
    start (UInt8.ofNat (n + 0xF0)) =
      ([], some ⟨n, 3, if n = 0 then 0x90 else tailLow, if n = 4 then 0x8F else tailHigh⟩) := by
  have all : ∀ n : Fin 5, start (UInt8.ofNat (n + 0xF0)) =
      ([], some ⟨n, 3, if n.val = 0 then 0x90 else tailLow,
        if n.val = 4 then 0x8F else tailHigh⟩) := by decide
  exact all ⟨n, high⟩

theorem advance_tail {bits owed n : Nat} {low high : UInt8} (hlow : low.toNat ≤ n % 64 + 0x80)
    (hhigh : n % 64 + 0x80 ≤ high.toNat) :
    advance ⟨bits, owed, low, high⟩ (tail n) =
      if owed ≤ 1 then ([some (Char.ofNat (64 * bits + n % 64))], none)
      else ([], some ⟨64 * bits + n % 64, owed - 1, tailLow, tailHigh⟩) := by
  have hl : low ≤ tail n := by
    rw [UInt8.le_iff_toNat_le, tail_toNat]
    exact hlow
  have hh : tail n ≤ high := by
    rw [UInt8.le_iff_toNat_le, tail_toNat]
    exact hhigh
  simp [advance, hl, hh, tail_toNat]

/-- A tail byte lies in the whole range of tails. -/
theorem tail_range (n : Nat) : tailLow.toNat ≤ n % 64 + 0x80 ∧ n % 64 + 0x80 ≤ tailHigh.toNat := by
  have hl : tailLow.toNat = 0x80 := rfl
  have hh : tailHigh.toNat = 0xBF := rfl
  omega

/-- The bytes of a character, by how many there are. -/
theorem encodeChar_eq (c : Char) :
    String.utf8EncodeChar c =
      if c.toNat ≤ 0x7F then [UInt8.ofNat c.toNat]
      else if c.toNat ≤ 0x7FF then [UInt8.ofNat (c.toNat / 64 % 32 + 0xC0), tail c.toNat]
      else if c.toNat ≤ 0xFFFF then
        [UInt8.ofNat (c.toNat / 4096 % 16 + 0xE0), tail (c.toNat / 64), tail c.toNat]
      else
        [UInt8.ofNat (c.toNat / 262144 % 8 + 0xF0), tail (c.toNat / 4096), tail (c.toNat / 64),
          tail c.toNat] := rfl

section

variable {bits owed n : Nat} {low high : UInt8} {rest : Bytes}

theorem scan_start {b : UInt8} {p : Pending} (h : start b = ([], some p)) :
    scan none (b :: rest) = scan (some p) rest := by
  rw [scan, h]
  rfl

theorem scan_tail (hlow : low.toNat ≤ n % 64 + 0x80) (hhigh : n % 64 + 0x80 ≤ high.toNat)
    (more : 1 < owed) :
    scan (some ⟨bits, owed, low, high⟩) (tail n :: rest) =
      scan (some ⟨64 * bits + n % 64, owed - 1, tailLow, tailHigh⟩) rest := by
  rw [scan, advance_tail hlow hhigh, if_neg (by omega)]
  rfl

theorem scan_last (hlow : low.toNat ≤ n % 64 + 0x80) (hhigh : n % 64 + 0x80 ≤ high.toNat) :
    scan (some ⟨bits, 1, low, high⟩) (tail n :: rest) =
      some (Char.ofNat (64 * bits + n % 64)) :: scan none rest := by
  rw [scan, advance_tail hlow hhigh, if_pos (Nat.le_refl 1)]
  rfl

end

theorem scan_encodeChar (c : Char) (rest : Bytes) :
    scan none (String.utf8EncodeChar c ++ rest) = some c :: scan none rest := by
  have hvalid : c.toNat < 0xD800 ∨ 0xDFFF < c.toNat ∧ c.toNat < 0x110000 := c.valid
  have hchar : Char.ofNat c.toNat = c := Char.ofNat_toNat c
  have hrange (n : Nat) := tail_range n
  rw [encodeChar_eq]
  split_ifs with h1 h2 h3
  · rw [List.singleton_append, scan, start_ascii (by omega), hchar]
    rfl
  · have hlead : c.toNat / 64 % 32 = c.toNat / 64 := by omega
    have hbits : 64 * (c.toNat / 64) + c.toNat % 64 = c.toNat := by omega
    rw [hlead, List.cons_append, scan_start (start_two (by omega) (by omega)), List.cons_append,
      scan_last (hrange _).1 (hrange _).2, hbits, hchar]
    rfl
  · have hlead : c.toNat / 4096 % 16 = c.toNat / 4096 := by omega
    have hbits : 64 * (64 * (c.toNat / 4096) + c.toNat / 64 % 64) + c.toNat % 64 = c.toNat := by
      omega
    have hlow : (if c.toNat / 4096 = 0 then (0xA0 : UInt8) else tailLow).toNat ≤
        c.toNat / 64 % 64 + 0x80 := by
      split_ifs
      · change 0xA0 ≤ _
        omega
      · exact (hrange _).1
    have hhigh : c.toNat / 64 % 64 + 0x80 ≤
        (if c.toNat / 4096 = 13 then (0x9F : UInt8) else tailHigh).toNat := by
      split_ifs
      · change _ ≤ 0x9F
        omega
      · exact (hrange _).2
    rw [hlead, List.cons_append, scan_start (start_three (by omega)), List.cons_append,
      scan_tail hlow hhigh (by omega), List.cons_append, scan_last (hrange _).1 (hrange _).2,
      hbits, hchar]
    rfl
  · have hlead : c.toNat / 262144 % 8 = c.toNat / 262144 := by omega
    have hbits : 64 * (64 * (64 * (c.toNat / 262144) + c.toNat / 4096 % 64) +
        c.toNat / 64 % 64) + c.toNat % 64 = c.toNat := by omega
    have hlow : (if c.toNat / 262144 = 0 then (0x90 : UInt8) else tailLow).toNat ≤
        c.toNat / 4096 % 64 + 0x80 := by
      split_ifs
      · change 0x90 ≤ _
        omega
      · exact (hrange _).1
    have hhigh : c.toNat / 4096 % 64 + 0x80 ≤
        (if c.toNat / 262144 = 4 then (0x8F : UInt8) else tailHigh).toNat := by
      split_ifs
      · change _ ≤ 0x8F
        omega
      · exact (hrange _).2
    rw [hlead, List.cons_append, scan_start (start_four (by omega)), List.cons_append,
      scan_tail hlow hhigh (by omega), List.cons_append,
      scan_tail (hrange _).1 (hrange _).2 (by omega), List.cons_append,
      scan_last (hrange _).1 (hrange _).2, hbits, hchar]
    rfl

theorem scan_encode (t : Text) : scan none (encode t) = t.map some := by
  induction t with
  | nil => rfl
  | cons c rest ih =>
    rw [encode, List.flatMap_cons, scan_encodeChar, ← encode, ih, List.map_cons]

/-- What is encoded reads back as it was. -/
theorem decode?_encode (t : Text) : decode? (encode t) = some t := by
  rw [decode?, scan_encode]
  induction t with
  | nil => rfl
  | cons c rest ih => simp [ih]

/-- A character in the making takes no byte of ASCII. -/
def Unfit (state : Option Pending) : Prop := ∀ p ∈ state, 0x80 ≤ p.low

theorem unfit_lead? (b : UInt8) : Unfit (lead? b) := by
  intro p hp
  simp only [lead?] at hp
  have hlow : (0x80 : UInt8) ≤ tailLow := by decide
  split_ifs at hp
  all_goals simp only [Option.mem_def, Option.some.injEq, reduceCtorEq] at hp
  all_goals rw [← hp]
  all_goals first | exact hlow | decide

theorem unfit_start (b : UInt8) : Unfit (start b).2 := by
  intro p hp
  simp only [start] at hp
  split at hp
  · cases hp
  · split at hp
    · next found hlead =>
      cases hp
      exact unfit_lead? b p hlead
    · cases hp

theorem unfit_advance (p : Pending) (b : UInt8) : Unfit (advance p b).2 := by
  intro q hq
  have hlow : (0x80 : UInt8) ≤ tailLow := by decide
  simp only [advance] at hq
  split at hq
  · split at hq
    · cases hq
    · obtain rfl := Option.some.inj hq
      exact hlow
  · exact unfit_start b q hq

/-- A byte of ASCII cuts off what is open, and stands for itself. -/
theorem scan_cons_ascii {b : UInt8} (hb : b < 0x80) {state : Option Pending} (hstate : Unfit state)
    (rest : Bytes) :
    scan state (b :: rest) = scan state [] ++ some (Char.ofNat b.toNat) :: scan none rest := by
  have hstart : start b = ([some (Char.ofNat b.toNat)], none) := by
    rw [start, if_pos hb]
  cases state with
  | none =>
    rw [scan.eq_3, hstart]
    rfl
  | some p =>
    have hlow : ¬p.low ≤ b := by
      have hp : 0x80 ≤ p.low := hstate p rfl
      rw [UInt8.le_iff_toNat_le] at hp ⊢
      rw [UInt8.lt_iff_toNat_lt] at hb
      omega
    have hcut : advance p b = ([none, some (Char.ofNat b.toNat)], none) := by
      simp [advance, hlow, hstart]
    rw [scan.eq_4, hcut]
    rfl

theorem scan_append_cons_ascii {b : UInt8} (hb : b < 0x80) {state : Option Pending}
    (hstate : Unfit state) (bytes rest : Bytes) :
    scan state (bytes ++ b :: rest) =
      scan state bytes ++ some (Char.ofNat b.toNat) :: scan none rest := by
  induction bytes generalizing state with
  | nil => exact scan_cons_ascii hb hstate rest
  | cons first more ih =>
    cases state with
    | none => rw [List.cons_append, scan, scan, ih (unfit_start first), List.append_assoc]
    | some p => rw [List.cons_append, scan, scan, ih (unfit_advance p first), List.append_assoc]

/-- Text that ends with ASCII decodes up to there as it does by itself, cut characters included. -/
theorem decodeLossy_append_ascii (bytes : Bytes) {ends : Bytes} (h : ∀ b ∈ ends, b < 0x80) :
    decodeLossy (bytes ++ ends) = decodeLossy bytes ++ ends.map fun b => Char.ofNat b.toNat := by
  induction ends generalizing bytes with
  | nil => rw [List.append_nil, List.map_nil, List.append_nil]
  | cons b rest ih =>
    have hb : b < 0x80 := h b List.mem_cons_self
    have hrest : ∀ c ∈ rest, c < 0x80 := fun c hc => h c (List.mem_cons_of_mem b hc)
    have hnone : Unfit none := fun p hp => nomatch hp
    have hends : decodeLossy rest = rest.map fun b => Char.ofNat b.toNat := ih [] hrest
    rw [List.map_cons, ← hends, decodeLossy, decodeLossy, scan_append_cons_ascii hb hnone,
      List.map_append, List.map_cons]
    rfl

@[simp] theorem size_nil : size [] = 0 := rfl

@[simp] theorem size_cons (c : Char) (t : Text) : size (c :: t) = c.utf8Size + size t := rfl

@[simp] theorem size_append (a b : Text) : size (a ++ b) = size a + size b := by
  induction a with
  | nil => simp
  | cons c a ih => simp [ih, Nat.add_assoc]

theorem size_le_of_sublist {a b : Text} (h : a.Sublist b) : size a ≤ size b := by
  induction h with
  | slnil => exact Nat.le_refl _
  | cons c _ ih => exact Nat.le_trans ih (Nat.le_add_left _ _)
  | cons_cons c _ ih => exact Nat.add_le_add_left ih _

/-- What is dropped by its size is dropped as it stands. -/
theorem dropBytes_size_append (a b : Text) : dropBytes (size a) (a ++ b) = b := by
  induction a with
  | nil => rw [size_nil, List.nil_append, dropBytes]
  | cons c a ih =>
    have hpos : 0 < c.utf8Size := Char.utf8Size_pos c
    obtain ⟨n, hn⟩ : ∃ n, size (c :: a) = n + 1 :=
      ⟨c.utf8Size + size a - 1, by rw [size_cons]; omega⟩
    have hrest : n + 1 - c.utf8Size = size a := by rw [← hn, size_cons, Nat.add_sub_cancel_left]
    rw [hn, List.cons_append, dropBytes, hrest, ih]
    exact Nat.succ_ne_zero n

theorem utf8Size_eq_one {c : Char} (h : c.toNat < 0x80) : c.utf8Size = 1 :=
  Char.utf8Size_eq_one_iff.mpr (UInt32.le_iff_toNat_le.mpr (Nat.le_of_lt_succ h))

theorem encodeChar_ascii {c : Char} (h : c.toNat < 0x80) :
    String.utf8EncodeChar c = [UInt8.ofNat c.toNat] := by
  rw [encodeChar_eq, if_pos (Nat.le_of_lt_succ h)]

theorem exists_encodeChar_cons {c : Char} (h : 0x80 ≤ c.toNat) :
    ∃ lead n more, String.utf8EncodeChar c = lead :: tail n :: more ∧ 0xC0 ≤ lead.toNat := by
  rw [encodeChar_eq, if_neg (by omega)]
  split_ifs
  all_goals
    refine ⟨_, _, _, rfl, ?_⟩
    rw [UInt8.toNat_ofNat']
    omega

theorem head?_encode {t : Text} : (encode t).head? = some 0x20 ↔ t.head? = some ' ' := by
  cases t with
  | nil => exact iff_of_false (by simp [encode]) (by simp)
  | cons c rest =>
    rw [encode, List.flatMap_cons, List.head?_cons, Option.some_inj]
    by_cases hc : c.toNat < 0x80
    · have hbyte : (UInt8.ofNat c.toNat).toNat = c.toNat := by
        rw [UInt8.toNat_ofNat', Nat.mod_eq_of_lt (by omega)]
      have hspace : (0x20 : UInt8).toNat = ' '.toNat := rfl
      rw [encodeChar_ascii hc, List.singleton_append, List.head?_cons, Option.some_inj,
        ← UInt8.toNat_inj, hbyte, hspace]
      exact Char.toNat_inj
    · obtain ⟨lead, n, more, hbytes, hlead⟩ := exists_encodeChar_cons (Nat.le_of_not_lt hc)
      rw [hbytes, List.cons_append, List.head?_cons, Option.some_inj]
      refine iff_of_false ?_ ?_
      · rintro rfl
        exact absurd hlead (by decide)
      · rintro rfl
        exact hc (by decide)

/-- The second byte of a text is a space just where a space follows a character of one byte. -/
theorem getElem?_one_encode {t : Text} :
    (encode t)[1]? = some 0x20 ↔ ∃ c rest, t = c :: ' ' :: rest ∧ c.toNat < 0x80 := by
  cases t with
  | nil => simp [encode]
  | cons c rest =>
    by_cases hc : c.toNat < 0x80
    · have hbytes : encode (c :: rest) = UInt8.ofNat c.toNat :: encode rest := by
        rw [encode, List.flatMap_cons, encodeChar_ascii hc]
        rfl
      rw [hbytes, List.getElem?_cons_succ, ← List.head?_eq_getElem?, head?_encode,
        List.head?_eq_some_iff]
      constructor
      · rintro ⟨rest, rfl⟩
        exact ⟨c, rest, rfl, hc⟩
      · rintro ⟨d, rest, heq, -⟩
        exact ⟨rest, (List.cons.inj heq).2⟩
    · obtain ⟨lead, n, more, hbytes, -⟩ := exists_encodeChar_cons (Nat.le_of_not_lt hc)
      have htail : tail n ≠ 0x20 := by
        intro h
        have hn : (tail n).toNat = 0x20 := congrArg UInt8.toNat h
        rw [tail_toNat] at hn
        omega
      have hsecond : (encode (c :: rest))[1]? = some (tail n) := by
        rw [encode, List.flatMap_cons, hbytes]
        rfl
      rw [hsecond]
      refine iff_of_false (fun h => htail (Option.some.inj h)) ?_
      rintro ⟨d, rest, heq, hd⟩
      exact hc ((List.cons.inj heq).1 ▸ hd)

end TraceReport.Utf8
