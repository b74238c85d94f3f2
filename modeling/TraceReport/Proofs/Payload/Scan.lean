import TraceReport.Payload
import TraceReport.Proofs.Text.Respaced

namespace TraceReport.Payload

/-- What may stand between quotes: read with backslashes as escapes, it has no double quote of its
own and does not end within an escape. -/
def Quotable : (escaped : Bool) → Text → Prop
  | escaped, [] => escaped = false
  | true, _ :: t => Quotable false t
  | false, c :: t => c ≠ '"' ∧ Quotable (c == '\\') t

instance Quotable.decidable : ∀ (escaped : Bool) (t : Text), Decidable (Quotable escaped t)
  | escaped, [] => inferInstanceAs (Decidable (escaped = false))
  | true, _ :: t => Quotable.decidable false t
  | false, c :: t =>
    have := Quotable.decidable (c == '\\') t
    inferInstanceAs (Decidable (_ ∧ _))

theorem quotable_of_not_mem {t : Text} (hquote : '"' ∉ t) (hslash : '\\' ∉ t) :
    Quotable false t := by
  induction t with
  | nil => rfl
  | cons c t ih =>
    simp only [List.mem_cons, not_or] at hquote hslash
    have hplain : (c == '\\') = false := beq_eq_false_iff_ne.mpr (Ne.symm hslash.1)
    exact ⟨Ne.symm hquote.1, hplain ▸ ih hquote.2 hslash.2⟩

namespace Scan

/-- Where a scan stands after a text. -/
def after (s : Scan) (t : Text) : Scan := t.foldl Scan.step s

@[simp] theorem after_nil (s : Scan) : s.after [] = s := rfl

@[simp] theorem after_cons (s : Scan) (c : Char) (t : Text) :
    s.after (c :: t) = (s.step c).after t := rfl

@[simp] theorem after_append (s : Scan) (a b : Text) :
    s.after (a ++ b) = (s.after a).after b :=
  List.foldl_append

/-- No comma of a text ends a field. -/
def Unbroken : Scan → Text → Prop
  | _, [] => True
  | s, c :: t => s.separates c = false ∧ Unbroken (s.step c) t

instance Unbroken.decidable : ∀ (s : Scan) (t : Text), Decidable (s.Unbroken t)
  | _, [] => isTrue trivial
  | s, c :: t =>
    have := Unbroken.decidable (s.step c) t
    inferInstanceAs (Decidable (_ ∧ _))

@[simp] theorem unbroken_nil (s : Scan) : s.Unbroken [] := trivial

@[simp] theorem unbroken_cons {s : Scan} {c : Char} {t : Text} :
    s.Unbroken (c :: t) ↔ s.separates c = false ∧ (s.step c).Unbroken t := Iff.rfl

@[simp] theorem unbroken_append {s : Scan} {a b : Text} :
    s.Unbroken (a ++ b) ↔ s.Unbroken a ∧ (s.after a).Unbroken b := by
  induction a generalizing s with
  | nil => simp
  | cons c a ih => simp [ih, and_assoc]

theorem Unbroken.of_prefix {s : Scan} {a b : Text} (h : s.Unbroken b) (hab : a <+: b) :
    s.Unbroken a := by
  obtain ⟨rest, rfl⟩ := hab
  exact (unbroken_append.mp h).1

/-- The characters that move a scan outside quotes, and the comma. -/
def marks : Text := ['"', ',', '\x7b', '[', '(', '\x7d', ']', ')']

section Unquoted

variable {s : Scan} (hs : s.quoted = false)
include hs

theorem step_of_not_mem {c : Char} (hc : c ∉ marks) :
    s.step c = s ∧ s.separates c = false := by
  simp only [marks, List.mem_cons, List.not_mem_nil, or_false, not_or] at hc
  simp [step, separates, hs, hc]

theorem after_of_not_mem {t : Text} (ht : ∀ c ∈ t, c ∉ marks) : s.after t = s ∧ s.Unbroken t := by
  induction t with
  | nil => exact ⟨rfl, trivial⟩
  | cons c t ih =>
    obtain ⟨hc, hrest⟩ := List.forall_mem_cons.mp ht
    obtain ⟨hstep, hsep⟩ := step_of_not_mem hs hc
    rw [after_cons, unbroken_cons, hstep]
    exact ⟨(ih hrest).1, hsep, (ih hrest).2⟩

end Unquoted

/-- After a blank nothing is escaped. -/
def settled (s : Scan) : Scan := { s with escaped := s.escaped && !s.quoted }

theorem step_blank (s : Scan) {c : Char} (hc : Text.isBlank c = true) :
    s.step c = s.settled ∧ s.separates c = false := by
  have hsolid : ∀ d ∈ '\\' :: marks, Text.isBlank d = false := by decide
  have hother : c ∉ '\\' :: marks := fun hm => by simp [hsolid c hm] at hc
  simp only [marks, List.mem_cons, List.not_mem_nil, or_false, not_or] at hother
  obtain ⟨depth, quoted, escaped⟩ := s
  cases quoted <;> cases escaped <;> simp [step, separates, settled, hother]

theorem after_blanks (s : Scan) {x : Text} (hx : ∀ c ∈ x, Text.isBlank c = true) :
    s.settled.after x = s.settled ∧ s.settled.Unbroken x := by
  induction x with
  | nil => exact ⟨rfl, trivial⟩
  | cons c x ih =>
    obtain ⟨hc, hrest⟩ := List.forall_mem_cons.mp hx
    obtain ⟨hstep, hsep⟩ := s.settled.step_blank hc
    have htwice : s.settled.settled = s.settled := by simp [settled]
    rw [after_cons, unbroken_cons, hstep, htwice]
    exact ⟨(ih hrest).1, hsep, (ih hrest).2⟩

theorem step_of_separates {s : Scan} {c : Char} (h : s.separates c = true) : s.step c = s := by
  simp only [separates, Bool.and_eq_true, Bool.not_eq_true', beq_iff_eq] at h
  obtain ⟨⟨hquoted, -⟩, rfl⟩ := h
  simp [step, hquoted]

/-- Where a comma or a blank leads to the start, the scan was there before. -/
theorem eq_start_of_step {s : Scan} {c : Char} (hc : c = ',' ∨ Text.isBlank c = true)
    (h : s.step c = start) : s = start := by
  obtain ⟨depth, quoted, escaped⟩ := s
  rcases hc with rfl | hblank
  · cases quoted <;> cases escaped <;> simp_all [step, start]
  · rw [(step_blank _ hblank).1] at h
    cases quoted with
    | true => simp [settled, start] at h
    | false => simpa [settled, start] using h

theorem inside_quotable {depth : Nat} {escaped : Bool} {t : Text} (h : Quotable escaped t) :
    (Scan.mk depth true escaped).after t = ⟨depth, true, false⟩ ∧
      (Scan.mk depth true escaped).Unbroken t := by
  induction t generalizing escaped with
  | nil =>
    obtain rfl : escaped = false := h
    exact ⟨rfl, trivial⟩
  | cons c t ih =>
    rw [after_cons, unbroken_cons]
    cases escaped with
    | true =>
      obtain ⟨hafter, hunbroken⟩ := @ih false h
      exact ⟨hafter, rfl, hunbroken⟩
    | false =>
      obtain ⟨hquote, hrest⟩ := h
      have hstep : (Scan.mk depth true false).step c = ⟨depth, true, c == '\\'⟩ := by
        by_cases hslash : c = '\\' <;> simp [step, hquote, hslash]
      obtain ⟨hafter, hunbroken⟩ := ih hrest
      rw [hstep]
      exact ⟨hafter, rfl, hunbroken⟩

/-- Quotes hold what is between them together. -/
theorem after_quotable {t : Text} (h : Quotable false t) :
    start.after ('"' :: t ++ ['"']) = start ∧ start.Unbroken ('"' :: t ++ ['"']) := by
  obtain ⟨hafter, hunbroken⟩ := inside_quotable h
  have hopen : start.step '"' = ⟨0, true, false⟩ := rfl
  rw [List.cons_append, after_cons, after_append, unbroken_cons, unbroken_append, hopen, hafter]
  exact ⟨rfl, rfl, hunbroken, rfl, trivial⟩

theorem after_quoted {t : Text} (hquote : '"' ∉ t) (hslash : '\\' ∉ t) :
    start.after ('"' :: t ++ ['"']) = start ∧ start.Unbroken ('"' :: t ++ ['"']) :=
  after_quotable (quotable_of_not_mem hquote hslash)

/-- A text that leaves a scan at its start and has no separating comma does not end with a comma. -/
theorem getLast?_ne_comma {s : Scan} {t : Text} (hafter : s.after t = start)
    (h : s.Unbroken t) : t.getLast? ≠ some ',' := by
  intro hlast
  obtain ⟨front, rfl⟩ := List.getLast?_eq_some_iff.mp hlast
  rw [after_append, after_cons, after_nil] at hafter
  obtain ⟨-, hsep, -⟩ := unbroken_append.mp h
  revert hafter hsep
  generalize s.after front = q
  obtain ⟨depth, quoted, escaped⟩ := q
  cases quoted <;> cases escaped <;> simp [step, separates, start]

end Scan

theorem stretches_ne_nil (s : Scan) (t : Text) : stretches s t ≠ [] := by
  cases t with
  | nil => exact List.cons_ne_nil _ _
  | cons c t =>
    rw [stretches]
    split
    · exact List.cons_ne_nil _ _
    · split
      · exact List.cons_ne_nil _ _
      · exact List.cons_ne_nil _ _

theorem stretches_cons {s : Scan} {c : Char} (h : s.separates c = false) (t : Text) :
    stretches s (c :: t) = (stretches (s.step c) t).modifyHead (c :: ·) := by
  obtain ⟨w, ws, hparts⟩ := List.exists_cons_of_ne_nil (stretches_ne_nil (s.step c) t)
  rw [stretches, h, if_neg Bool.false_ne_true, hparts, List.modifyHead_cons]

/-- A text without separating commas is one stretch, and goes on in the first of those after it. -/
theorem stretches_append {s : Scan} {a : Text} (h : s.Unbroken a) (b : Text) :
    stretches s (a ++ b) = (stretches (s.after a) b).modifyHead (a ++ ·) := by
  induction a generalizing s with
  | nil =>
    obtain ⟨w, ws, hparts⟩ := List.exists_cons_of_ne_nil (stretches_ne_nil s b)
    simp [hparts]
  | cons c a ih =>
    obtain ⟨hc, hrest⟩ := Scan.unbroken_cons.mp h
    obtain ⟨w, ws, hparts⟩ := List.exists_cons_of_ne_nil
      (stretches_ne_nil ((s.step c).after a) b)
    rw [List.cons_append, stretches_cons hc, ih hrest, Scan.after_cons, hparts]
    rfl

theorem stretches_of_unbroken {s : Scan} {t : Text} (h : s.Unbroken t) : stretches s t = [t] := by
  have hparts := stretches_append h []
  rwa [List.append_nil, stretches, List.modifyHead_cons, List.append_nil] at hparts

/-- A field that is closed ends at the comma after it. -/
theorem stretches_append_comma {a : Text} (h : Scan.start.Unbroken a)
    (hclosed : Scan.start.after a = Scan.start) (b : Text) :
    stretches .start (a ++ ',' :: b) = a :: stretches .start b := by
  have hsep : stretches .start (',' :: b) = [] :: stretches .start b := by
    rw [stretches]
    exact if_pos rfl
  rw [stretches_append h, hclosed, hsep, List.modifyHead_cons, List.append_nil]

/-- The fields are the trimmed stretches that are not empty. -/
theorem map_text_place (offset : Nat) (ws : List Text) :
    (place offset ws).map (·.text) = (ws.map Text.trim).filter fun w => !w.isEmpty := by
  induction ws generalizing offset with
  | nil => rfl
  | cons w ws ih =>
    have htrim : Text.trimEnd (Text.trimStart w) = Text.trim w := rfl
    simp only [place, List.map_cons, htrim]
    cases Text.trim w with
    | nil => exact ih _
    | cons c rest => exact congrArg _ (ih _)

/-- The texts of the fields of a payload. -/
def fieldTexts (t : Text) : List Text := (split t).map (·.text)

theorem fieldTexts_eq (t : Text) :
    fieldTexts t = ((stretches .start t).map Text.trim).filter fun w => !w.isEmpty :=
  map_text_place 0 _

/-- The character after a text ends its last stretch or goes on in it. -/
theorem stretches_concat (s : Scan) (t : Text) :
    ∃ front last, stretches s t = front ++ [last] ∧ ∀ c, stretches s (t ++ [c]) =
      if (s.after t).separates c then front ++ [last, []] else front ++ [last ++ [c]] := by
  induction t generalizing s with
  | nil => exact ⟨[], [], rfl, fun c => rfl⟩
  | cons d t ih =>
    obtain ⟨front, last, ht, hconcat⟩ := ih (s.step d)
    cases hd : s.separates d with
    | true =>
      have hcut (rest : Text) : stretches s (d :: rest) = [] :: stretches (s.step d) rest := by
        rw [stretches, if_pos hd, Scan.step_of_separates hd]
      refine ⟨[] :: front, last, by rw [hcut, ht, List.cons_append], fun c => ?_⟩
      rw [List.cons_append, hcut, hconcat, Scan.after_cons]
      split <;> rfl
    | false =>
      have hgo := stretches_cons hd
      cases front with
      | nil =>
        refine ⟨[], d :: last, by rw [hgo, ht]; rfl, fun c => ?_⟩
        rw [List.cons_append, hgo, hconcat, Scan.after_cons]
        split <;> rfl
      | cons w front =>
        refine ⟨(d :: w) :: front, last, by rw [hgo, ht]; rfl, fun c => ?_⟩
        rw [List.cons_append, hgo, hconcat, Scan.after_cons]
        split <;> rfl

section Ends

variable {t tail : Text} {c : Char}

theorem fieldTexts_cons_blank (hc : Text.isBlank c = true) (t : Text) :
    fieldTexts (c :: t) = fieldTexts t := by
  obtain ⟨hstep, hsep⟩ := Scan.start.step_blank hc
  have hsettled : Scan.start.settled = .start := rfl
  obtain ⟨w, ws, ht⟩ := List.exists_cons_of_ne_nil (stretches_ne_nil .start t)
  rw [fieldTexts_eq, fieldTexts_eq, stretches_cons hsep, hstep, hsettled, ht,
    List.modifyHead_cons, List.map_cons, List.map_cons, Text.trim_cons_blank hc]

theorem fieldTexts_concat_blank (hc : Text.isBlank c = true) (t : Text) :
    fieldTexts (t ++ [c]) = fieldTexts t := by
  obtain ⟨front, last, ht, hconcat⟩ := stretches_concat .start t
  have hblank : Text.trim (last ++ [c]) = Text.trim last :=
    Text.trim_append_blanks (by simpa using hc) last
  rw [fieldTexts_eq, fieldTexts_eq, ht, hconcat, (Scan.step_blank _ hc).2,
    if_neg Bool.false_ne_true]
  simp only [List.map_append, List.map_singleton, hblank]

theorem fieldTexts_concat_comma (h : Scan.start.after t = .start) :
    fieldTexts (t ++ [',']) = fieldTexts t := by
  obtain ⟨front, last, ht, hconcat⟩ := stretches_concat .start t
  have hsep : Scan.start.separates ',' = true := rfl
  have hempty : Text.trim [] = [] := rfl
  rw [fieldTexts_eq, fieldTexts_eq, ht, hconcat, h, if_pos hsep]
  simp [hempty, List.filter_cons]

theorem fieldTexts_append_blanks (htail : ∀ c ∈ tail, Text.isBlank c = true) (t : Text) :
    fieldTexts (t ++ tail) = fieldTexts t := by
  induction tail generalizing t with
  | nil => rw [List.append_nil]
  | cons c tail ih =>
    obtain ⟨hc, hrest⟩ := List.forall_mem_cons.mp htail
    rw [List.append_cons, ih hrest, fieldTexts_concat_blank hc]

/-- Blanks around a payload are in none of its fields. -/
theorem fieldTexts_trim (t : Text) : fieldTexts (Text.trim t) = fieldTexts t := by
  have hend (t : Text) : fieldTexts (Text.trimEnd t) = fieldTexts t := by
    obtain ⟨dropped, ht, hdropped⟩ := Text.exists_append_dropEndWhile Text.isBlank t
    conv_rhs => rw [ht, fieldTexts_append_blanks hdropped]
    rfl
  have hstart (t : Text) : fieldTexts (Text.trimStart t) = fieldTexts t := by
    induction t with
    | nil => rfl
    | cons c t ih =>
      rw [Text.trimStart, List.dropWhile_cons]
      split
      case isTrue hc => rw [fieldTexts_cons_blank hc, ← Text.trimStart, ih]
      case isFalse => rfl
  rw [Text.trim, hend, hstart]

/-- Where all quotes and brackets are closed, commas and blanks at the end are in no field. -/
theorem fieldTexts_append_tail (htail : ∀ c ∈ tail, c = ',' ∨ Text.isBlank c = true)
    (h : Scan.start.after (t ++ tail) = .start) : fieldTexts (t ++ tail) = fieldTexts t := by
  induction tail using List.reverseRecOn with
  | nil => rw [List.append_nil]
  | append_singleton tail c ih =>
    rw [← List.append_assoc, Scan.after_append] at h
    have hc := htail c (by simp)
    have hbefore : Scan.start.after (t ++ tail) = .start := Scan.eq_start_of_step hc h
    have hrest := ih (fun d hd => htail d (List.mem_append_left _ hd)) hbefore
    rw [← List.append_assoc, ← hrest]
    rcases hc with rfl | hblank
    · exact fieldTexts_concat_comma hbefore
    · exact fieldTexts_concat_blank hblank _

end Ends

end TraceReport.Payload
