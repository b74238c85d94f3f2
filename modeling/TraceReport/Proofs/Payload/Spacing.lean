import TraceReport.Proofs.Payload.Rendering

namespace TraceReport.Payload

open Text (Respaced SingleSpaced IsWord IsGap Trimmed joinWith)

section Scanning

theorem Scan.after_gap (s : Scan) {x : Text} (hx : IsGap x) :
    s.after x = s.settled ∧ s.Unbroken x := by
  obtain ⟨c, rest, rfl⟩ := List.exists_cons_of_ne_nil hx.1
  obtain ⟨hc, hrest⟩ := List.forall_mem_cons.mp hx.2
  obtain ⟨hstep, hsep⟩ := s.step_blank hc
  obtain ⟨hafter, hunbroken⟩ := s.after_blanks hrest
  rw [after_cons, unbroken_cons, hstep]
  exact ⟨hafter, hsep, hunbroken⟩

/-- A scan does not tell respaced texts apart. -/
theorem Scan.after_respaced {a b : Text} (h : Respaced a b) (s : Scan) :
    s.after a = s.after b ∧ (s.Unbroken a ↔ s.Unbroken b) := by
  induction h generalizing s with
  | nil => exact ⟨rfl, Iff.rfl⟩
  | @char c a b _ _ ih =>
    obtain ⟨hafter, hunbroken⟩ := ih (s.step c)
    rw [after_cons, after_cons, unbroken_cons, unbroken_cons, hafter, hunbroken]
    exact ⟨rfl, Iff.rfl⟩
  | @gap x y a b hx hy _ _ ih =>
    obtain ⟨hx', hxu⟩ := s.after_gap hx
    obtain ⟨hy', hyu⟩ := s.after_gap hy
    obtain ⟨hafter, hunbroken⟩ := ih s.settled
    rw [after_append, after_append, unbroken_append, unbroken_append, hx', hy', hafter, hunbroken]
    exact ⟨rfl, and_congr_left fun _ => iff_of_true hxu hyu⟩

end Scanning

/-- What a tracer calls its fields. -/
structure IsName (key : Text) : Prop where
  word : IsWord key
  plain : ∀ c ∈ key, c ∉ Scan.marks
  noEquals : '=' ∉ key

theorem IsName.isKey {key : Text} (h : IsName key) : IsKey key :=
  ⟨h.word.1, h.word.2.trimmed, h.plain, h.noEquals⟩

/-- A field as it is printed: a value has neither blanks around it nor commas or brackets that could
be taken for those around fields. -/
structure Printed where
  key : Text
  value : Text
  name : IsName key
  value_ne_nil : value ≠ []
  value_trimmed : Trimmed value
  value_closed : Scan.start.after value = .start
  value_unbroken : Scan.start.Unbroken value

namespace Printed

/-- A value between quotes. -/
def quoted {key value : Text} (name : IsName key) (hquote : '"' ∉ value) (hslash : '\\' ∉ value) :
    Printed where
  key := key
  value := '"' :: value ++ ['"']
  name := name
  value_ne_nil := List.cons_ne_nil _ _
  value_trimmed := Text.trimmed_quoted value
  value_closed := (Scan.after_quoted hquote hslash).1
  value_unbroken := (Scan.after_quoted hquote hslash).2

def entry (f : Printed) : Entry := ⟨f.key, ' ' :: f.value⟩

/-- What becomes of a printed field when its blanks change. -/
structure Becomes (f : Printed) (e : Entry) : Prop where
  key : e.key = f.key
  rest : Respaced (' ' :: f.value) e.rest

variable {f : Printed} {e : Entry}

theorem Becomes.closed (h : f.Becomes e) : Scan.start.after e.rest = .start := by
  rw [← (Scan.after_respaced h.rest .start).1]
  exact f.value_closed

theorem Becomes.valid (h : f.Becomes e) : e.Valid where
  key := h.key ▸ f.name.isKey
  unbroken := (Scan.after_respaced h.rest .start).2.mp ⟨rfl, f.value_unbroken⟩

/-- The last character of a value stays. -/
theorem Becomes.getLast? (h : f.Becomes e) : e.rest.getLast? = f.value.getLast? := by
  obtain ⟨front, c, hvalue⟩ := List.eq_nil_or_concat f.value |>.resolve_left f.value_ne_nil
  rw [List.concat_eq_append] at hvalue
  have hc : Text.isBlank c = false := f.value_trimmed.2 c (by
    rw [hvalue, List.getLast?_concat]
    rfl)
  have hrest := h.rest
  rw [hvalue, ← List.cons_append] at hrest
  obtain ⟨front', back', hsplit, -, hback⟩ := Respaced.split_char hc hrest
  obtain rfl : back' = [] := hback.eq_of_singleSpaced (by decide)
  rw [hsplit, hvalue, List.getLast?_concat, List.getLast?_concat]

theorem Becomes.solid_end (h : f.Becomes e) :
    ∃ c, e.rest.getLast? = some c ∧ Text.isBlank c = false := by
  have hlast := List.getLast?_eq_some_getLast f.value_ne_nil
  exact ⟨_, h.getLast?.trans hlast, f.value_trimmed.2 _ hlast⟩

/-- The value in quotes is read as what becomes of it. -/
theorem Becomes.read_quoted {value : Text} (hvalue : f.value = '"' :: value ++ ['"'])
    (h : f.Becomes e) :
    ∃ read, e.read = (f.key, read) ∧ Respaced value read ∧ e.rest.getLast? = some '"' := by
  have hrest := h.rest
  rw [hvalue] at hrest
  obtain ⟨gap, after, hafter, hgap, hquoted⟩ :=
    Respaced.split_char (a := [' ']) (c := '"') (by decide) hrest
  obtain ⟨read, back, hread, hvalue', hback⟩ := Respaced.split_char (by decide) hquoted
  obtain rfl : gap = [' '] := hgap.eq_of_singleSpaced (by decide)
  obtain rfl : back = [] := hback.eq_of_singleSpaced (by decide)
  have hwhole : e.rest = ' ' :: ('"' :: read ++ ['"']) := by
    rw [hafter, hread]
    rfl
  have hquoted : e = Entry.quoted (f.key, read) := by
    obtain ⟨key, rest⟩ := e
    rw [Entry.quoted, Entry.mk.injEq]
    exact ⟨h.key, hwhole⟩
  refine ⟨read, ?_, hvalue', ?_⟩
  · rw [hquoted, Entry.read_quoted]
  · rw [hquoted, Entry.getLast?_quoted]

end Printed

section Spelling

/-- Entries after a mark, up to the closing brace. -/
def spelled (mark : Char) : List Entry → Text
  | [] => [' ', '\x7d']
  | e :: entries => mark :: ' ' :: e.text ++ spelled ',' entries

theorem spelled_cons (mark : Char) (e : Entry) (entries : List Entry) :
    spelled mark (e :: entries) = mark :: ' ' :: written (e :: entries) ++ [' ', '\x7d'] := by
  induction entries generalizing mark e with
  | nil => simp [spelled, written]
  | cons d entries ih =>
    rw [spelled, ih, written_cons e (List.cons_ne_nil d entries)]
    simp

theorem braced_eq_spelled {entries : List Entry} (h : entries ≠ []) :
    braced entries = spelled '\x7b' entries := by
  obtain ⟨e, rest, rfl⟩ := List.exists_cons_of_ne_nil h
  rw [spelled_cons, braced]

/-- Blanks that change in a payload change in its values. -/
theorem changed_of_respaced {mark : Char} (hmark : Text.isBlank mark = false)
    {fields : List Printed} {z : Text} (h : Respaced (spelled mark (fields.map Printed.entry)) z) :
    ∃ changed : List (Printed × Entry), changed.map Prod.fst = fields ∧
      z = spelled mark (changed.map Prod.snd) ∧ ∀ p ∈ changed, p.1.Becomes p.2 := by
  induction fields generalizing mark z with
  | nil =>
    have hclosing : SingleSpaced [' ', '\x7d'] := by decide
    exact ⟨[], rfl, h.eq_of_singleSpaced hclosing, by simp⟩
  | cons f fields ih =>
    have hword := f.name.word
    have hopening : SingleSpaced (mark :: ' ' :: (f.key ++ [' ', '='])) := by
      refine .cons hmark (.cons_space (fun c hc => ?_) (.append hword.2 (by decide)))
      obtain ⟨d, key, hkey⟩ := List.exists_cons_of_ne_nil hword.1
      rw [hkey] at hc
      exact hword.2 c (hkey ▸ List.mem_of_head? hc)
    have hsplit : spelled mark ((f :: fields).map Printed.entry) =
        mark :: ' ' :: (f.key ++ [' ', '=']) ++
          (' ' :: f.value ++ spelled ',' (fields.map Printed.entry)) := by
      simp [spelled, Printed.entry, Entry.text]
    rw [hsplit] at h
    have hequals : ∀ c ∈ (mark :: ' ' :: (f.key ++ [' ', '='])).getLast?,
        Text.isBlank c = false := by
      rw [← List.cons_append, ← List.cons_append, List.getLast?_append]
      simp [Text.isBlank]
    have hvalue : ∀ c ∈ (' ' :: f.value).getLast?, Text.isBlank c = false := fun c hc => by
      rw [List.getLast?_cons, List.getLast?_eq_some_getLast f.value_ne_nil] at hc
      exact f.value_trimmed.2 c (List.getLast?_eq_some_getLast f.value_ne_nil ▸ hc)
    obtain ⟨front, later, rfl, hfront, hlater⟩ := h.split hequals (List.cons_ne_nil _ _)
    obtain rfl := hfront.eq_of_singleSpaced hopening
    obtain ⟨rest, tail, rfl, hrest, htail⟩ := hlater.split hvalue (List.cons_ne_nil _ _)
    obtain ⟨changed, rfl, rfl, hchanged⟩ := ih (by decide) htail
    refine ⟨(f, ⟨f.key, rest⟩) :: changed, rfl, by simp [spelled, Entry.text], ?_⟩
    exact List.forall_mem_cons.mpr ⟨⟨rfl, hrest⟩, hchanged⟩

end Spelling

/-- The value of a field in quotes, when the blanks of a payload of several fields change. -/
theorem find?_plain_respaced {before after : List Printed} {field : Printed} {value z : Text}
    (hvalue : field.value = '"' :: value ++ ['"']) (hlater : ∀ f ∈ after, f.key ≠ field.key)
    (hmany : before ≠ [] ∨ after ≠ [])
    (hz : Respaced (braced ((before ++ field :: after).map Printed.entry)) z) :
    ∃ read, (plain z).1.find? field.key = some read ∧ Respaced value read := by
  rw [braced_eq_spelled (by simp)] at hz
  obtain ⟨changed, hfields, rfl, hchanged⟩ := changed_of_respaced (by decide) hz
  obtain ⟨front, back, rfl, rfl, hback⟩ := List.map_eq_append_iff.mp hfields
  obtain ⟨⟨found, e⟩, rest, rfl, hfound, rfl⟩ := List.map_eq_cons_iff.mp hback
  obtain rfl : found = field := hfound
  have hfield : found.Becomes e := hchanged (found, e) (by simp)
  obtain ⟨read, hread, hvalue', hlast⟩ := hfield.read_quoted hvalue
  refine ⟨read, ?_, hvalue'⟩
  have hentries (d : Entry) (hd : d ∈ front.map Prod.snd ++ e :: rest.map Prod.snd) :
      ∃ f : Printed, f.Becomes d := by
    rw [← List.map_cons (f := Prod.snd) (a := (found, e)), ← List.map_append] at hd
    obtain ⟨p, hp, rfl⟩ := List.mem_map.mp hd
    exact ⟨p.1, hchanged p hp⟩
  rw [← braced_eq_spelled (by simp), List.map_append, List.map_cons]
  rw [← hfield.key, find?_plain_braced (fun d hd => (hentries d hd).choose_spec.valid)
    (fun d hd => (hentries d hd).choose_spec.closed)
    (fun d hd => (hentries d hd).choose_spec.solid_end), hread]
  · rw [hlast]
    decide
  · intro d hd
    obtain ⟨p, hp, rfl⟩ := List.mem_map.mp hd
    rw [(hchanged p (by simp [hp])).key, hfield.key]
    exact hlater p.1 (List.mem_map_of_mem hp)
  · simpa using hmany

end TraceReport.Payload
