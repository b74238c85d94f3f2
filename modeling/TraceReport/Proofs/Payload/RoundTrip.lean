import TraceReport.Proofs.Payload.Rendering

namespace TraceReport.Payload

namespace Entry

variable {pair : Text × Text}

theorem quoted_closed (h : Quotable false pair.2) :
    Scan.start.after (Entry.quoted pair).rest = .start ∧
      Scan.start.Unbroken (Entry.quoted pair).rest := by
  obtain ⟨hafter, hunbroken⟩ := Scan.after_quotable h
  have hblank : Scan.start.step ' ' = .start ∧ Scan.start.separates ' ' = false := ⟨rfl, rfl⟩
  rw [quoted, Scan.after_cons, Scan.unbroken_cons, hblank.1, hblank.2]
  exact ⟨hafter, rfl, hunbroken⟩

theorem quoted_valid (hkey : IsKey pair.1) (hvalue : Quotable false pair.2) :
    (Entry.quoted pair).Valid :=
  ⟨hkey, (quoted_closed hvalue).2⟩

end Entry

/-- Pairs of keys with quoted values are read as they were written, in their order. -/
theorem pairs_braced_quoted {list : List (Text × Text)} (hkeys : ∀ pair ∈ list, IsKey pair.1)
    (hvalues : ∀ pair ∈ list, Quotable false pair.2) :
    pairs (braced (list.map Entry.quoted)) = Table.ofPairs list := by
  rcases List.eq_nil_or_concat list with rfl | ⟨before, last, rfl⟩
  case inl => decide
  rw [List.concat_eq_append] at hkeys hvalues ⊢
  have hvalid : ∀ e ∈ before.map Entry.quoted ++ [Entry.quoted last], e.Valid := by
    intro e he
    rw [← List.map_singleton, ← List.map_append] at he
    obtain ⟨pair, hpair, rfl⟩ := List.mem_map.mp he
    exact Entry.quoted_valid (hkeys pair hpair) (hvalues pair hpair)
  have hclosed : ∀ e ∈ before.map Entry.quoted ++ [Entry.quoted last],
      Scan.start.after e.rest = .start := by
    intro e he
    rw [← List.map_singleton, ← List.map_append] at he
    obtain ⟨pair, hpair, rfl⟩ := List.mem_map.mp he
    exact (Entry.quoted_closed (hvalues pair hpair)).1
  have hend : ∀ c ∈ (Entry.quoted last).rest.getLast?, Text.isBlank c = false := by
    rw [Entry.getLast?_quoted]
    decide
  have htrimmed := trimmed_written (fun e he => (hvalid e he).key) (List.cons_ne_nil _ _) hend
  have hpairs := pairs_of_unbraced (unbraced_braces htrimmed) hvalid
    fun e he => hclosed e (List.mem_append_left _ he)
  have hread : (before.map Entry.quoted ++ [Entry.quoted last]).map Entry.read =
      before ++ [last] := by
    simp [Function.comp_def, Entry.read_quoted]
  rw [hread] at hpairs
  rw [List.map_append, List.map_singleton]
  exact hpairs

/-- A payload of keys and values that is written in braces, with its values in quotes and its pairs
in any order, is read back. -/
theorem read_written {payload : Payload} {list : List (Text × Text)} (ho : payload.Ordered)
    (horder : list.Perm payload) (hkeys : ∀ pair ∈ payload, IsKey pair.1)
    (hvalues : ∀ pair ∈ payload, Quotable false pair.2) :
    pairs (braced (list.map Entry.quoted)) = payload := by
  have hread := pairs_braced_quoted (fun pair hpair => hkeys pair (horder.subset hpair))
    fun pair hpair => hvalues pair (horder.subset hpair)
  rw [hread]
  exact Table.ofPairs_eq_of_perm ho horder

/-- Values that look like fields, braces and pairs, one with escaped quotes and one empty. -/
def mixedPayload : Payload :=
  [("done".toList, []), ("next step".toList, "x = \x7b1, 2".toList),
    ("quote".toList, "say \\\"hi\\\", ".toList)]

theorem read_written_mixed :
    mixedPayload.Ordered ∧ mixedPayload.reverse.Perm mixedPayload ∧
    (∀ pair ∈ mixedPayload, IsKey pair.1) ∧ (∀ pair ∈ mixedPayload, Quotable false pair.2) ∧
    braced (mixedPayload.reverse.map Entry.quoted) =
      "\x7b quote = \"say \\\"hi\\\", \", next step = \"x = \x7b1, 2\", done = \"\" \x7d".toList ∧
    pairs (braced (mixedPayload.reverse.map Entry.quoted)) = mixedPayload := by
  have ho : mixedPayload.Ordered := by decide +kernel
  have hkeys : ∀ pair ∈ mixedPayload, IsKey pair.1 := by decide
  have hvalues : ∀ pair ∈ mixedPayload, Quotable false pair.2 := by decide
  have horder : mixedPayload.reverse.Perm mixedPayload := List.reverse_perm _
  exact ⟨ho, horder, hkeys, hvalues, by decide, read_written ho horder hkeys hvalues⟩

end TraceReport.Payload
