import TraceReport.Proofs.Payload.Rendering

namespace TraceReport.Payload

open Text (trim trimEnd trimStart Trimmed)

/-- A payload whose only field is a scope. -/
def IsLoneScope (t : Text) : Prop :=
  ((split (unbraced t)).map fun field => (pair? field.text).map Prod.fst) = [some scopeKey]

instance (t : Text) : Decidable (IsLoneScope t) :=
  inferInstanceAs (Decidable ((List.map _ _) = _))

theorem plain_of_not_isLoneScope {t : Text} (h : ¬IsLoneScope t) :
    plain t = (pairs (unbraced t), none) := by
  rw [IsLoneScope] at h
  rw [plain]
  split
  case h_1 field hfields =>
    rw [hfields, List.map_singleton] at h
    split
    case h_1 key value hpair =>
      rw [hpair] at h
      rw [if_neg]
      rintro rfl
      exact h rfl
    case h_2 => rfl
  case h_2 => rfl

/-- A field as it is read into a table. -/
def read? (field : Text) : Option (Text × Text) :=
  (pair? field).map fun (key, value) => (key, Text.unquote value)

theorem pairs_eq (t : Text) :
    pairs t = Table.ofPairs ((fieldTexts (unbraced t)).filterMap read?) := by
  rw [pairs, fieldTexts, List.filterMap_map]
  rfl

/-- A brace at the end of a field is the end of its value. -/
theorem pair?_trim_brace (s : Text) :
    (pair? (trim (s ++ ['\x7d'])) = none ∧ pair? (trim s) = none) ∨
      ∃ key value, value.getLast? = some '\x7d' ∧
        pair? (trim (s ++ ['\x7d'])) = some (key, value) ∧
        pair? (trim s) = some (key, trim value.dropLast) := by
  have hbrace : Text.isBlank '\x7d' = false := by decide
  rw [Text.trim_concat hbrace, trim]
  by_cases hmark : '=' ∈ trimStart s
  case neg =>
    have hconcat : '=' ∉ trimStart s ++ ['\x7d'] := by simp [hmark]
    have hend : '=' ∉ trimEnd (trimStart s) := fun h =>
      hmark ((List.rdropWhile_prefix Text.isBlank (trimStart s)).subset h)
    left
    rw [pair?, pair?, Text.cut?_of_not_mem hconcat, Text.cut?_of_not_mem hend]
    exact ⟨rfl, rfl⟩
  case pos =>
    obtain ⟨a, b, hsplit, ha⟩ := List.eq_append_cons_of_mem hmark
    rw [hsplit, Text.trimEnd_append_cons (by decide), List.append_assoc, List.cons_append, pair?,
      pair?, Text.cut?_append ha, Text.cut?_append ha]
    dsimp only
    split
    case isTrue => exact .inl ⟨rfl, rfl⟩
    case isFalse =>
      refine .inr ⟨trim a, trim (b ++ ['\x7d']), ?_, rfl, ?_⟩
      · rw [Text.trim_concat hbrace, List.getLast?_concat]
      · rw [Text.trim_concat hbrace, List.dropLast_concat, Text.trim_trimStart, Text.trim_trimEnd]

theorem exists_append_withoutTail (t : Text) :
    ∃ tail, t = withoutTail t ++ tail ∧ ∀ c ∈ tail, c = ',' ∨ Text.isBlank c = true := by
  obtain ⟨commas, ht, hcommas⟩ := Text.exists_append_dropEndWhile (· == ',') t
  obtain ⟨blanks, hrest, hblanks⟩ :=
    Text.exists_append_dropEndWhile Text.isBlank (Text.dropEndWhile (· == ',') t)
  refine ⟨blanks ++ commas, ?_, fun c hc => ?_⟩
  · rw [← List.append_assoc, withoutTail, trimEnd, ← hrest]
    exact ht
  · rcases List.mem_append.mp hc with hc | hc
    · exact .inr (hblanks c hc)
    · exact .inl (beq_iff_eq.mp (hcommas c hc))

/-- The last field of a text is a pair that ends in a closing brace. -/
def EndsInBrace (t key value : Text) : Prop :=
  (withoutTail t).getLast? = some '\x7d' ∧ (fieldTexts t).getLast?.bind pair? = some (key, value)

instance (t key value : Text) : Decidable (EndsInBrace t key value) :=
  inferInstanceAs (Decidable (_ ∧ _))

/-- With its last brace a text loses that of its last field, and nothing else. -/
theorem fieldTexts_brace (t : Text) :
    ∃ front s, fieldTexts (t ++ ['\x7d']) = front ++ [trim (s ++ ['\x7d'])] ∧
      fieldTexts t = front ++ [trim s].filter fun w => !w.isEmpty := by
  obtain ⟨front, last, ht, hconcat⟩ := stretches_concat .start t
  have hsep : (Scan.start.after t).separates '\x7d' = false := by simp [Scan.separates]
  refine ⟨(front.map trim).filter fun w => !w.isEmpty, last, ?_, ?_⟩
  · rw [fieldTexts_eq, hconcat, hsep, if_neg Bool.false_ne_true, List.map_append,
      List.filter_append]
    simp [Text.trim_concat (c := '\x7d') (by decide)]
  · rw [fieldTexts_eq, ht, List.map_append, List.filter_append, List.map_singleton]

/-- No pair is read from a field without characters. -/
theorem filterMap_read?_filter (ws : List Text) :
    (ws.filter fun w => !w.isEmpty).filterMap read? = ws.filterMap read? := by
  rw [List.filterMap_filter]
  refine List.filterMap_congr fun w _ => ?_
  cases w with
  | nil => rfl
  | cons c w => rfl

/-- With its last brace a text loses that of its last pair, and nothing else. -/
theorem read_brace (t : Text) :
    ((fieldTexts (t ++ ['\x7d'])).getLast?.bind pair? = none ∧
        (fieldTexts t).filterMap read? = (fieldTexts (t ++ ['\x7d'])).filterMap read?) ∨
      ∃ front key value, value.getLast? = some '\x7d' ∧
        (fieldTexts (t ++ ['\x7d'])).getLast?.bind pair? = some (key, value) ∧
        (fieldTexts (t ++ ['\x7d'])).filterMap read? = front ++ [(key, value)] ∧
        (fieldTexts t).filterMap read? = front ++ [(key, Text.unquote (trim value.dropLast))] := by
  obtain ⟨front, s, hbrace, hbare⟩ := fieldTexts_brace t
  rw [hbrace, hbare, List.getLast?_concat, List.filterMap_append, List.filterMap_append,
    filterMap_read?_filter, Option.bind_some]
  rcases pair?_trim_brace s with ⟨hpair, hinside⟩ | ⟨key, value, hvalue, hpair, hinside⟩
  · refine .inl ⟨hpair, ?_⟩
    simp [read?, hpair, hinside]
  · refine .inr ⟨front.filterMap read?, key, value, hvalue, hpair, ?_, ?_⟩
    · have hunquoted : Text.unquote value = value :=
        Text.unquote_of_getLast? (by rw [hvalue]; decide)
      simp [read?, hpair, hunquoted]
    · simp [read?, hinside]

section

variable {t : Text}

theorem fieldTexts_withoutTail (ht : Trimmed t)
    (hcomma : t.getLast? = some ',' → Scan.start.after t = .start) :
    fieldTexts (withoutTail t) = fieldTexts t := by
  by_cases hlast : t.getLast? = some ','
  case neg => rw [withoutTail_eq_self ht.2 hlast]
  case pos =>
    obtain ⟨tail, hsplit, htail⟩ := exists_append_withoutTail t
    have hclosed := hcomma hlast
    rw [hsplit] at hclosed
    conv_rhs => rw [hsplit]
    exact (fieldTexts_append_tail htail hclosed).symm

/-- What is read when a brace is taken off once more. -/
theorem read_unbraced (ht : Trimmed t) (hopen : t.head? ≠ some '\x7b')
    (hcomma : t.getLast? = some ',' → Scan.start.after t = .start) :
    ((∀ key value, ¬EndsInBrace t key value) ∧
        (fieldTexts (unbraced t)).filterMap read? = (fieldTexts t).filterMap read?) ∨
      ∃ front key value, EndsInBrace t key value ∧ value.getLast? = some '\x7d' ∧
        (fieldTexts t).filterMap read? = front ++ [(key, value)] ∧
        (fieldTexts (unbraced t)).filterMap read? =
          front ++ [(key, Text.unquote (trim value.dropLast))] := by
  have hsame := fieldTexts_withoutTail ht hcomma
  have hbare : fieldTexts (unbraced t) = fieldTexts (dropBack '\x7d' (withoutTail t)) := by
    rw [unbraced_unopened ht hopen, fieldTexts_trim]
  simp only [EndsInBrace]
  rw [hbare, ← hsame, dropBack]
  split
  case isFalse hlast => exact .inl ⟨fun key value h => hlast h.1, rfl⟩
  case isTrue hlast =>
    obtain ⟨inside, hinside⟩ := List.getLast?_eq_some_iff.mp hlast
    rw [hinside, List.dropLast_concat]
    rcases read_brace inside with ⟨hpair, hread⟩ | ⟨front, key, value, hvalue, hpair, hread, hlost⟩
    · refine .inl ⟨fun key value h => ?_, hread⟩
      exact Option.some_ne_none _ (h.2.symm.trans hpair)
    · exact .inr ⟨front, key, value, ⟨List.getLast?_concat, hpair⟩, hvalue, hread, hlost⟩

theorem trimmed_unbraced (t : Text) : Trimmed (unbraced t) := Text.trimmed_trim _

/-- The pairs of a text without its braces, against those of the text. -/
theorem pairs_unbraced (hopen : (unbraced t).head? ≠ some '\x7b')
    (hcomma : (unbraced t).getLast? = some ',' → Scan.start.after (unbraced t) = .start) :
    ((∀ key value, ¬EndsInBrace (unbraced t) key value) ∧ pairs (unbraced t) = pairs t) ∨
      ∃ key value, EndsInBrace (unbraced t) key value ∧ value.getLast? = some '\x7d' ∧
        (pairs t).find? key = some value ∧
        pairs (unbraced t) = (pairs t).insert key (Text.unquote (trim value.dropLast)) := by
  rw [pairs_eq t, pairs_eq (unbraced t)]
  rcases read_unbraced (trimmed_unbraced t) hopen hcomma with
    ⟨hnone, hread⟩ | ⟨front, key, value, hends, hvalue, hread, hlost⟩
  · exact .inl ⟨hnone, congrArg Table.ofPairs hread⟩
  · refine .inr ⟨key, value, hends, hvalue, ?_, ?_⟩
    · rw [hread, Table.ofPairs_concat, Table.find?_insert_self]
    · rw [hread, hlost, Table.ofPairs_concat, Table.ofPairs_concat, Table.insert_insert]

end

/-- A value with a brace at its end is longer than what is read of it when the brace is lost. -/
theorem unquote_trim_dropLast_ne {value : Text} (h : value.getLast? = some '\x7d') :
    Text.unquote (trim value.dropLast) ≠ value := by
  have hpos : 0 < value.length := by
    obtain ⟨front, rfl⟩ := List.getLast?_eq_some_iff.mp h
    simp
  have hunquoted := Text.length_unquote_le (trim value.dropLast)
  have htrimmed := (Text.trim_infix value.dropLast).length_le
  rw [List.length_dropLast] at htrimmed
  intro heq
  have hlength := congrArg List.length heq
  omega

/-- Payloads that are no lone scope. Braces come off twice: what is read are the pairs of the text
within the braces. Where that text neither opens with a brace nor ends with a comma within quotes or
brackets, they are the pairs of the payload, unless its last pair ends in a closing brace: its value
is then read without it. -/
theorem plain_against_pairs {t : Text} (hscope : ¬IsLoneScope t) :
    plain t = (pairs (unbraced t), none) ∧
      ((unbraced t).head? ≠ some '\x7b' →
        ((unbraced t).getLast? = some ',' → Scan.start.after (unbraced t) = .start) →
        (plain t = (pairs t, none) ↔ ∀ key value, ¬EndsInBrace (unbraced t) key value) ∧
        ∀ key value, EndsInBrace (unbraced t) key value →
          (pairs t).find? key = some value ∧
          plain t = ((pairs t).insert key (Text.unquote (trim value.dropLast)), none)) := by
  have hplain := plain_of_not_isLoneScope hscope
  refine ⟨hplain, fun hopen hcomma => ?_⟩
  rw [hplain]
  rcases pairs_unbraced hopen hcomma with
    ⟨hnone, hsame⟩ | ⟨key, value, hends, hvalue, hfound, hlost⟩
  · rw [hsame]
    exact ⟨iff_of_true rfl hnone, fun key value h => absurd h (hnone key value)⟩
  · refine ⟨iff_of_false ?_ fun hnone => hnone key value hends, fun key' value' h => ?_⟩
    · intro hsame
      have hfind := congrArg (Table.find? key) (hlost.symm.trans (Prod.mk.inj hsame).1)
      rw [Table.find?_insert_self, hfound] at hfind
      exact unquote_trim_dropLast_ne hvalue (Option.some.inj hfind)
    · obtain ⟨rfl, rfl⟩ := Prod.mk.inj (Option.some.inj (hends.2.symm.trans h.2))
      exact ⟨hfound, by rw [hlost]⟩

/-- A value in braces that stands last. -/
def nestedPayload : Text := "\x7b text = \"a\", data = \x7b x = 1 \x7d \x7d".toList

theorem plain_against_pairs_nested :
    ¬IsLoneScope nestedPayload ∧
    EndsInBrace (unbraced nestedPayload) "data".toList "\x7b x = 1 \x7d".toList ∧
    (pairs nestedPayload).find? "data".toList = some "\x7b x = 1 \x7d".toList ∧
    plain nestedPayload =
      ((pairs nestedPayload).insert "data".toList "\x7b x = 1".toList, none) := by
  have hscope : ¬IsLoneScope nestedPayload := by decide
  have hends : EndsInBrace (unbraced nestedPayload) "data".toList "\x7b x = 1 \x7d".toList := by
    decide
  obtain ⟨-, hagree⟩ := plain_against_pairs hscope
  obtain ⟨-, hlost⟩ := hagree (by decide) (by decide)
  obtain ⟨hfound, hplain⟩ := hlost _ _ hends
  exact ⟨hscope, hends, hfound, hplain⟩

/-- Plain payloads are not read as their pairs. -/
theorem plain_ne_pairs : ¬∀ t, ¬IsLoneScope t → plain t = (pairs t, none) := by
  intro h
  have hsame := h nestedPayload (by decide)
  revert hsame
  decide

end TraceReport.Payload
