import TraceReport.Proofs.Payload.Scan
import TraceReport.Proofs.Text.Utf8

namespace TraceReport.Payload

/-- A text in which every quote is closed, and what of it stands outside quotes. -/
inductive Unquoted : Text → Text → Prop
  | nil : Unquoted [] []
  | plain {c : Char} {t outside : Text} (hc : c ≠ '"') (h : Unquoted t outside) :
      Unquoted (c :: t) (c :: outside)
  | quotation {inside t outside : Text} (hinside : Quotable false inside)
      (h : Unquoted t outside) : Unquoted ('"' :: inside ++ '"' :: t) outside

/-- How many brackets are open after a text without quotes, where `depth` are open before it. A
bracket that closes none is passed over. -/
def openAfter (depth : Nat) : Text → Nat
  | [] => depth
  | c :: t =>
    if c ∈ ['\x7b', '[', '('] then openAfter (depth + 1) t
    else if c ∈ ['\x7d', ']', ')'] then openAfter (depth - 1) t
    else openAfter depth t

/-- A comma after this text stands outside quotes and brackets. -/
def Separating (before : Text) : Prop :=
  ∃ outside, Unquoted before outside ∧ openAfter 0 outside = 0

/-- No comma of a text that stands after `before` is a separating one. -/
def Whole (before t : Text) : Prop :=
  ∀ a b, t = a ++ ',' :: b → ¬Separating (before ++ a)

/-- The stretches between the separating commas of a text that stands after `before`. -/
inductive Parted : (before : Text) → Text → List Text → Prop
  | last {before w : Text} (hw : Whole before w) : Parted before w [w]
  | more {before w rest : Text} {ws : List Text} (hw : Whole before w)
      (hcomma : Separating (before ++ w)) (hrest : Parted (before ++ w ++ [',']) rest ws) :
      Parted before (w ++ ',' :: rest) (w :: ws)

namespace Unquoted

variable {t outside : Text} {depth : Nat}

/-- A scan of a text without open quotes counts the brackets outside its quotes. -/
theorem after_eq (h : Unquoted t outside) (depth : Nat) :
    (Scan.mk depth false false).after t = ⟨openAfter depth outside, false, false⟩ := by
  induction h generalizing depth with
  | nil => rfl
  | @plain c t outside hc h ih =>
    have hstep : (Scan.mk depth false false).step c =
        ⟨if c ∈ ['\x7b', '[', '('] then depth + 1
          else if c ∈ ['\x7d', ']', ')'] then depth - 1 else depth, false, false⟩ := by
      simp only [Scan.step, List.mem_cons, List.not_mem_nil, or_false]
      split_ifs <;> simp_all
    rw [Scan.after_cons, hstep, ih, openAfter]
    split_ifs <;> rfl
  | @quotation inside t outside hinside h ih =>
    have hopen : (Scan.mk depth false false).step '"' = ⟨depth, true, false⟩ := rfl
    have hclose : (Scan.mk depth true false).step '"' = ⟨depth, false, false⟩ := rfl
    rw [List.cons_append, Scan.after_cons, hopen, Scan.after_append,
      (Scan.inside_quotable hinside).1, Scan.after_cons, hclose, ih]

/-- A scan that leaves quotes does so at a quote that is not escaped. -/
theorem exists_closing {escaped : Bool}
    (h : ((Scan.mk depth true escaped).after t).quoted = false) :
    ∃ inside rest, t = inside ++ '"' :: rest ∧ Quotable escaped inside ∧
      ((Scan.mk depth false false).after rest).quoted = false := by
  induction t generalizing escaped with
  | nil => exact absurd h (by simp)
  | cons c t ih =>
    rw [Scan.after_cons] at h
    cases escaped with
    | true =>
      obtain ⟨inside, rest, rfl, hinside, hrest⟩ := @ih false h
      exact ⟨c :: inside, rest, rfl, hinside, hrest⟩
    | false =>
      by_cases hquote : c = '"'
      · subst hquote
        exact ⟨[], t, rfl, rfl, h⟩
      · have hstep : (Scan.mk depth true false).step c = ⟨depth, true, c == '\\'⟩ := by
          by_cases hslash : c = '\\' <;> simp [Scan.step, hquote, hslash]
        rw [hstep] at h
        obtain ⟨inside, rest, rfl, hinside, hrest⟩ := ih h
        exact ⟨c :: inside, rest, rfl, ⟨hquote, hinside⟩, hrest⟩

theorem exists_of_after (h : ((Scan.mk depth false false).after t).quoted = false) :
    ∃ outside, Unquoted t outside := by
  induction hlength : t.length using Nat.strong_induction_on generalizing t depth with
  | h n ih =>
    cases t with
    | nil => exact ⟨[], .nil⟩
    | cons c t =>
      rw [List.length_cons] at hlength
      rw [Scan.after_cons] at h
      by_cases hquote : c = '"'
      · subst hquote
        obtain ⟨inside, rest, rfl, hinside, hrest⟩ := exists_closing h
        rw [List.length_append, List.length_cons] at hlength
        obtain ⟨outside, houtside⟩ := ih rest.length (by omega) hrest rfl
        exact ⟨outside, .quotation hinside houtside⟩
      · obtain ⟨inner, hstep⟩ :
            ∃ inner, (Scan.mk depth false false).step c = ⟨inner, false, false⟩ := by
          simp only [Scan.step]
          split_ifs <;> simp_all
        rw [hstep] at h
        obtain ⟨outside, houtside⟩ := ih t.length (by omega) h rfl
        exact ⟨c :: outside, .plain hquote houtside⟩

end Unquoted

/-- After a text that a separating comma may follow, a scan is where it began. -/
theorem separating_iff {before : Text} : Separating before ↔ Scan.start.after before = .start := by
  constructor
  · rintro ⟨outside, hunquoted, hdepth⟩
    rw [Scan.start, hunquoted.after_eq, hdepth]
  · intro h
    have hquoted : (Scan.start.after before).quoted = false := by rw [h]; rfl
    obtain ⟨outside, hunquoted⟩ := Unquoted.exists_of_after hquoted
    rw [Scan.start, hunquoted.after_eq] at h
    exact ⟨outside, hunquoted, congrArg Scan.depth h⟩

theorem separates_iff {before : Text} {c : Char} :
    (Scan.start.after before).separates c = true ↔ c = ',' ∧ Separating before := by
  constructor
  · intro h
    simp only [Scan.separates, Bool.and_eq_true, Bool.not_eq_true', beq_iff_eq] at h
    obtain ⟨⟨hquoted, hdepth⟩, hcomma⟩ := h
    obtain ⟨outside, hunquoted⟩ := Unquoted.exists_of_after hquoted
    rw [Scan.start, hunquoted.after_eq] at hdepth
    exact ⟨hcomma, outside, hunquoted, hdepth⟩
  · rintro ⟨rfl, h⟩
    rw [separating_iff.mp h]
    rfl

theorem whole_nil (before : Text) : Whole before [] := by
  intro a b h
  exact absurd h (by simp)

theorem whole_cons {before t : Text} {c : Char} :
    Whole before (c :: t) ↔ ¬(c = ',' ∧ Separating before) ∧ Whole (before ++ [c]) t := by
  constructor
  · intro h
    refine ⟨?_, fun a b ht => ?_⟩
    · rintro ⟨rfl, hsep⟩
      exact h [] t rfl (by simpa using hsep)
    · have hc := h (c :: a) b (by rw [ht, List.cons_append])
      simpa using hc
  · rintro ⟨hc, ht⟩ a b heq
    cases a with
    | nil =>
      obtain ⟨rfl, -⟩ := List.cons.inj heq
      simpa using hc
    | cons d a =>
      obtain ⟨rfl, hrest⟩ := List.cons.inj heq
      simpa using ht a b hrest

theorem whole_iff {before t : Text} : Whole before t ↔ (Scan.start.after before).Unbroken t := by
  induction t generalizing before with
  | nil => exact iff_of_true (whole_nil before) trivial
  | cons c t ih =>
    rw [whole_cons, Scan.unbroken_cons, ih, Scan.after_append, ← separates_iff,
      Bool.not_eq_true]
    rfl

namespace Parted

variable {before t : Text} {ws : List Text}

/-- A character that is no separating comma belongs to the first stretch. -/
theorem cons {c : Char} (hc : ¬(c = ',' ∧ Separating before)) (h : Parted (before ++ [c]) t ws) :
    Parted before (c :: t) (ws.modifyHead (c :: ·)) := by
  have hmove (w : Text) : before ++ [c] ++ w = before ++ c :: w := by simp
  cases h with
  | last hw => exact .last (whole_cons.mpr ⟨hc, hw⟩)
  | @more _ w rest ws hw hcomma hrest =>
    rw [hmove] at hcomma hrest
    exact .more (whole_cons.mpr ⟨hc, hw⟩) hcomma hrest

theorem of_stretches (before t : Text) :
    Parted before t (stretches (Scan.start.after before) t) := by
  induction t generalizing before with
  | nil => exact .last (whole_nil before)
  | cons c t ih =>
    have hrest := ih (before ++ [c])
    rw [Scan.after_append, Scan.after_cons, Scan.after_nil] at hrest
    cases hsep : (Scan.start.after before).separates c with
    | true =>
      obtain ⟨rfl, hcomma⟩ := separates_iff.mp hsep
      rw [Scan.step_of_separates hsep] at hrest
      rw [stretches, if_pos hsep]
      exact .more (whole_nil before) (by rwa [List.append_nil]) (by rwa [List.append_nil])
    | false =>
      rw [stretches_cons hsep]
      exact cons (fun h => by simp [separates_iff.mpr h] at hsep) hrest

/-- A stretch that is scanned by itself is one field at most. -/
theorem unbroken (h : Parted before t ws) (hbefore : Scan.start.after before = .start) :
    ∀ w ∈ ws, Scan.start.Unbroken w := by
  induction h with
  | last hw =>
    rw [whole_iff, hbefore] at hw
    simpa using hw
  | @more before w rest ws hw hcomma hrest ih =>
    rw [whole_iff, hbefore] at hw
    have hnext : Scan.start.after (before ++ w ++ [',']) = .start := by
      rw [Scan.after_append, separating_iff.mp hcomma]
      rfl
    exact List.forall_mem_cons.mpr ⟨hw, ih hnext⟩

end Parted

/-- A character of two texts that are joined stands in the one or in the other. -/
theorem append_eq_append_cons {x y a b : Text} {c : Char} (h : x ++ y = a ++ c :: b) :
    (∃ p, x = a ++ c :: p) ∨ ∃ q, a = x ++ q ∧ y = q ++ c :: b := by
  rcases List.append_eq_append_iff.mp h with ⟨q, ha, hy⟩ | ⟨p, hx, hcb⟩
  · exact .inr ⟨q, ha, hy⟩
  · cases p with
    | nil => exact .inr ⟨[], by simpa using hx.symm, by simpa using hcb.symm⟩
    | cons d p =>
      obtain ⟨rfl, -⟩ := List.cons.inj hcb
      exact .inl ⟨p, hx⟩

/-- Fields of a text that stands after `before`: each at its byte, one behind the other, and between
them only blanks and separating commas. -/
structure Located (before t : Text) (fields : List Field) : Prop where
  stands : ∀ f ∈ fields, ∃ a b, t = a ++ f.text ++ b ∧ f.offset = Utf8.size (before ++ a)
  apart : fields.Pairwise fun f g => f.offset + Utf8.size f.text < g.offset
  between : ∀ a c b, t = a ++ c :: b →
    (∃ f ∈ fields, f.offset ≤ Utf8.size (before ++ a) ∧
      Utf8.size (before ++ a) < f.offset + Utf8.size f.text) ∨
    Text.isBlank c = true ∨ c = ',' ∧ Separating (before ++ a)

/-- The blanks around a stretch, those before it with their size. -/
theorem exists_ends (w : Text) :
    ∃ front behind, (∀ c ∈ front, Text.isBlank c = true) ∧ (∀ c ∈ behind, Text.isBlank c = true) ∧
      w = front ++ Text.trim w ++ behind ∧
      Utf8.size w - Utf8.size (Text.trimStart w) = Utf8.size front := by
  obtain ⟨behind, hback, hbehind⟩ := Text.exists_append_dropEndWhile Text.isBlank (Text.trimStart w)
  have hfront : w = w.takeWhile Text.isBlank ++ Text.trimStart w :=
    List.takeWhile_append_dropWhile.symm
  refine ⟨w.takeWhile Text.isBlank, behind, fun c hc => List.mem_takeWhile_imp hc, hbehind, ?_, ?_⟩
  · calc w = w.takeWhile Text.isBlank ++ Text.trimStart w := hfront
      _ = w.takeWhile Text.isBlank ++ (Text.trim w ++ behind) := congrArg _ hback
      _ = w.takeWhile Text.isBlank ++ Text.trim w ++ behind := (List.append_assoc ..).symm
  · have hsize := congrArg Utf8.size hfront
    rw [Utf8.size_append] at hsize
    omega

theorem place_cons_place (offset : Nat) (w : Text) (ws : List Text) :
    place offset (w :: ws) = place offset [w] ++ place (offset + Utf8.size w + 1) ws := by
  simp only [place]
  split <;> rfl

namespace Located

variable {before t w rest : Text} {fields later : List Field}

/-- A field ends within its text. -/
theorem end_le (h : Located before t fields) {f : Field} (hf : f ∈ fields) :
    f.offset + Utf8.size f.text ≤ Utf8.size (before ++ t) := by
  obtain ⟨a, b, rfl, hoffset⟩ := h.stands f hf
  simp only [hoffset, Utf8.size_append]
  omega

theorem le_offset (h : Located before t fields) {f : Field} (hf : f ∈ fields) :
    Utf8.size before ≤ f.offset := by
  obtain ⟨a, b, -, hoffset⟩ := h.stands f hf
  rw [hoffset, Utf8.size_append]
  exact Nat.le_add_right _ _

/-- A field that stands between blanks. -/
theorem framed (before : Text) {front body behind : Text}
    (hfront : ∀ c ∈ front, Text.isBlank c = true) (hbehind : ∀ c ∈ behind, Text.isBlank c = true) :
    Located before (front ++ body ++ behind) [⟨Utf8.size (before ++ front), body⟩] := by
  refine ⟨?_, List.pairwise_singleton _ _, fun a c b h => ?_⟩
  · rw [List.forall_mem_singleton]
    exact ⟨front, behind, rfl, rfl⟩
  · simp only [List.mem_singleton, exists_eq_left]
    rcases append_eq_append_cons h with ⟨p, hfield⟩ | ⟨q, -, htail⟩
    · rcases append_eq_append_cons hfield with ⟨p, hhead⟩ | ⟨q, rfl, rfl⟩
      · exact .inr (.inl (hfront c (by simp [hhead])))
      · refine .inl ⟨?_, ?_⟩
        · simp only [Utf8.size_append]
          omega
        · have hpos : 0 < c.utf8Size := Char.utf8Size_pos c
          simp only [Utf8.size_append, Utf8.size_cons]
          omega
    · exact .inr (.inl (hbehind c (by simp [htail])))

theorem blanks (before : Text) (h : ∀ c ∈ t, Text.isBlank c = true) : Located before t [] where
  stands := by simp
  apart := List.Pairwise.nil
  between a c b ht := .inr (.inl (h c (by simp [ht])))

/-- A stretch is trimmed to its field. -/
theorem of_place (before w : Text) : Located before w (place (Utf8.size before) [w]) := by
  obtain ⟨front, behind, hfront, hbehind, hw, hsize⟩ := exists_ends w
  have hplace : place (Utf8.size before) [w] =
      if (Text.trim w).isEmpty then [] else [⟨Utf8.size (before ++ front), Text.trim w⟩] := by
    rw [Utf8.size_append, ← hsize]
    rfl
  rw [hplace]
  split
  case isTrue hempty =>
    rw [List.isEmpty_iff.mp hempty, List.append_nil] at hw
    refine blanks before fun c hc => ?_
    rw [hw] at hc
    exact (List.mem_append.mp hc).elim (hfront c) (hbehind c)
  case isFalse =>
    conv => arg 2; rw [hw]
    exact framed before hfront hbehind

/-- What is located on both sides of a separating comma. -/
theorem append (hw : Located before w fields) (hcomma : Separating (before ++ w))
    (hrest : Located (before ++ w ++ [',']) rest later) :
    Located before (w ++ ',' :: rest) (fields ++ later) := by
  have hmark : Utf8.size (before ++ w ++ [',']) = Utf8.size (before ++ w) + 1 :=
    Utf8.size_append _ _
  refine ⟨fun f hf => ?_, ?_, fun a c b h => ?_⟩
  · rcases List.mem_append.mp hf with hf | hf
    · obtain ⟨a, b, rfl, hoffset⟩ := hw.stands f hf
      exact ⟨a, b ++ ',' :: rest, by simp, hoffset⟩
    · obtain ⟨a, b, rfl, hoffset⟩ := hrest.stands f hf
      exact ⟨w ++ ',' :: a, b, by simp, by simp [hoffset]⟩
  · refine List.pairwise_append.mpr ⟨hw.apart, hrest.apart, fun f hf g hg => ?_⟩
    have hend := hw.end_le hf
    have hstart := hrest.le_offset hg
    omega
  · rcases append_eq_append_cons h with ⟨p, hp⟩ | ⟨q, rfl, hq⟩
    · refine (hw.between a c p hp).imp_left ?_
      rintro ⟨f, hf, hin⟩
      exact ⟨f, List.mem_append_left _ hf, hin⟩
    · cases q with
      | nil =>
        obtain ⟨rfl, -⟩ := List.cons.inj hq
        exact .inr (.inr ⟨rfl, by rwa [List.append_nil]⟩)
      | cons d q =>
        obtain ⟨rfl, htail⟩ := List.cons.inj hq
        have hmove : before ++ w ++ [','] ++ q = before ++ (w ++ ',' :: q) := by simp
        have hin := hrest.between q c b htail
        rw [hmove] at hin
        refine hin.imp_left ?_
        rintro ⟨f, hf, hin⟩
        exact ⟨f, List.mem_append_right _ hf, hin⟩

end Located

theorem Parted.located {before t : Text} {ws : List Text} (h : Parted before t ws) :
    Located before t (place (Utf8.size before) ws) := by
  induction h with
  | @last before w hw => exact .of_place before w
  | @more before w rest ws hw hcomma hrest ih =>
    have hoffset : Utf8.size before + Utf8.size w + 1 = Utf8.size (before ++ w ++ [',']) := by
      simp only [Utf8.size_append]
      rfl
    rw [place_cons_place, hoffset]
    exact (Located.of_place before w).append hcomma ih

/-- A trimmed text without separating commas is one field. -/
theorem split_of_unbroken {t : Text} (h : Scan.start.Unbroken t) (htrimmed : Text.Trimmed t)
    (hne : t ≠ []) : split t = [⟨0, t⟩] := by
  have hstart : Text.trimStart t = t := Text.trimStart_of_head? htrimmed.1
  have hend : Text.trimEnd t = t := Text.dropEndWhile_of_getLast? htrimmed.2
  rw [split, stretches_of_unbroken h, place, place, hstart, hend, Nat.sub_self]
  exact if_neg (by simpa using hne)

/-- Blanks around a stretch do not change how it is scanned. -/
theorem unbroken_trim {w : Text} (h : Scan.start.Unbroken w) :
    Scan.start.Unbroken (Text.trim w) := by
  obtain ⟨front, behind, hfront, -, hw, -⟩ := exists_ends w
  have hblanks : Scan.start.after front = .start := (Scan.start.after_blanks hfront).1
  rw [hw, List.append_assoc, Scan.unbroken_append, Scan.unbroken_append, hblanks] at h
  exact h.2.1

/-- How a payload is split: its fields are the stretches between the separating commas, trimmed and
in their order, without those that are blank. Each stands at its byte, apart from the others, with
nothing but blanks and separating commas around them, and split again it is one field. -/
theorem split_exact (t : Text) :
    ∃ ws, Parted [] t ws ∧
      (split t).map (·.text) = (ws.map Text.trim).filter (fun w => !w.isEmpty) ∧
      Located [] t (split t) ∧
      ∀ f ∈ split t, split f.text = [⟨0, f.text⟩] := by
  have hparted : Parted [] t (stretches .start t) := .of_stretches [] t
  have htexts : (split t).map (·.text) =
      ((stretches .start t).map Text.trim).filter fun w => !w.isEmpty := map_text_place 0 _
  refine ⟨_, hparted, htexts, hparted.located, fun f hf => ?_⟩
  have hf : f.text ∈ (split t).map (·.text) := List.mem_map_of_mem hf
  rw [htexts, List.mem_filter] at hf
  obtain ⟨htext, hne⟩ := hf
  obtain ⟨w, hw, hwf⟩ := List.mem_map.mp htext
  rw [← hwf]
  exact split_of_unbroken (unbroken_trim (hparted.unbroken rfl w hw)) (Text.trimmed_trim w)
    (by simpa [hwf] using hne)

/-- Blanks of several bytes, a comma after an escaped quote, and brackets that do not match. -/
theorem split_exact_unbalanced :
    let t := "a = 1,\u2003é = \"x\\\", y\" ,, )b = (1, 2 ".toList
    split t = [⟨0, "a = 1".toList⟩, ⟨9, "é = \"x\\\", y\"".toList⟩, ⟨26, ")b = (1, 2".toList⟩] ∧
      Located [] t (split t) ∧ split ")b = (1, 2".toList = [⟨0, ")b = (1, 2".toList⟩] := by
  intro t
  have hsplit : split t =
      [⟨0, "a = 1".toList⟩, ⟨9, "é = \"x\\\", y\"".toList⟩, ⟨26, ")b = (1, 2".toList⟩] := by decide
  obtain ⟨-, -, -, hlocated, hagain⟩ := split_exact t
  exact ⟨hsplit, hlocated, hagain ⟨26, ")b = (1, 2".toList⟩ (by simp [hsplit])⟩

end TraceReport.Payload
