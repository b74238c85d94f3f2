import TraceReport.Proofs.Line.Tokens
import TraceReport.Proofs.Text.Respaced

namespace TraceReport

namespace Text

theorem words_append_blanks {x : Text} (hx : ∀ c ∈ x, isBlank c = true) (t : Text) :
    words (t ++ x) = words t := by
  induction x using List.reverseRecOn with
  | nil => rw [List.append_nil]
  | append_singleton x c ih =>
    have hc := hx c (by simp)
    rw [← List.append_assoc, words_append_blank hc, ih fun d hd => hx d (List.mem_append_left _ hd)]
    exact List.append_nil _

theorem respaced_words {t : Text} (hfirst : ∀ c ∈ t.head?, isBlank c = false)
    (hlast : ∀ c ∈ t.getLast?, isBlank c = false) : Respaced t (joinWith [' '] (words t)) := by
  have hopen : lead isBlank t = [] := by
    cases t with
    | nil => rfl
    | cons c t => simp [lead, hfirst c rfl]
  have hsqueezed := respaced_squeeze (fun _ => id) hlast
  rwa [hopen, List.nil_append, squeeze, ← words_eq] at hsqueezed

end Text

namespace Line

open Text

/-- Before its first tab a text falls into words, after it into stretches. -/
theorem joinWith_tokens_append_tab {front back : Text} (hfront : '\t' ∉ front)
    (hf : ∃ c ∈ front, Text.isBlank c = false) (hb : ∃ c ∈ back, Text.isBlank c = false) :
    joinWith [' '] (tokens (front ++ '\t' :: back)) =
      joinWith [' '] (words front) ++ ' ' :: squeeze (· == '\t') back := by
  obtain ⟨c, hc, hsolid⟩ := hf
  obtain ⟨d, hd, hsolid'⟩ := hb
  have hne : front ≠ [] := List.ne_nil_of_mem hc
  have hwords : words front ≠ [] := by
    rw [words_eq]
    exact filter_splitOnP_ne_nil hsolid hc
  have htab : d ≠ '\t' := by
    rintro rfl
    exact absurd hsolid' (by decide)
  rw [tokens_eq, chunks, List.splitOn_append_cons_self_of_not_mem hfront,
    List.filter_cons_of_pos (by simp [hne]), List.splitOn_eq_splitOnP]
  exact joinWith_append ' ' hwords
    (filter_splitOnP_ne_nil (p := (· == '\t')) (beq_eq_false_iff_ne.mpr htab) hd)

/-- Tokens with one space between them have the blanks of their text, in stretches that may be wider
or of another kind. -/
theorem respaced_tokens {t : Text} (hfirst : ∀ c ∈ t.head?, Text.isBlank c = false)
    (hlast : ∀ c ∈ t.getLast?, Text.isBlank c = false) :
    Respaced t (joinWith [' '] (tokens t)) := by
  by_cases htab : '\t' ∈ t
  · obtain ⟨front, back, rfl, hfront⟩ := List.eq_append_cons_of_mem htab
    obtain ⟨c, rest, rfl⟩ : ∃ c rest, front = c :: rest := by
      cases front with
      | nil => exact absurd (hfirst '\t' rfl) (by decide)
      | cons c rest => exact ⟨c, rest, rfl⟩
    have hc : Text.isBlank c = false := hfirst c rfl
    obtain ⟨d, hd⟩ : ∃ d, back.getLast? = some d := by
      cases hend : back.getLast? with
      | none =>
        obtain rfl := List.getLast?_eq_none_iff.mp hend
        exact absurd (hlast '\t' List.getLast?_concat) (by decide)
      | some d => exact ⟨d, rfl⟩
    have hsolid : Text.isBlank d = false := hlast d (by
      rw [List.getLast?_append, List.getLast?_cons, hd]
      rfl)
    rw [joinWith_tokens_append_tab hfront ⟨c, by simp, hc⟩ ⟨d, List.mem_of_getLast? hd, hsolid⟩]
    have hlater : Respaced ('\t' :: back) (' ' :: squeeze (· == '\t') back) := by
      have hsqueezed := respaced_squeeze (p := (· == '\t')) (t := '\t' :: back)
        (fun e he => beq_iff_eq.mp he ▸ rfl) fun e he => by
          rw [List.getLast?_cons, hd] at he
          obtain rfl := Option.some.inj he
          refine beq_eq_false_iff_ne.mpr ?_
          rintro rfl
          exact absurd hsolid (by decide)
      rwa [squeeze_cons_mark rfl] at hsqueezed
    obtain ⟨dropped, hsplit, hdropped⟩ := exists_append_dropEndWhile Text.isBlank (c :: rest)
    have hkept : Respaced (dropEndWhile Text.isBlank (c :: rest))
        (joinWith [' '] (words (c :: rest))) := by
      have hwords := words_append_blanks hdropped (dropEndWhile Text.isBlank (c :: rest))
      rw [← hsplit] at hwords
      rw [hwords]
      refine respaced_words (fun e he => ?_) (getLast?_dropEndWhile _ _)
      have hhead : (c :: rest).head? = some e := by
        rw [hsplit, List.head?_append, he]
        rfl
      exact Option.some.inj hhead ▸ hc
    have hwhole : c :: rest ++ '\t' :: back =
        dropEndWhile Text.isBlank (c :: rest) ++ (dropped ++ '\t' :: back) := by
      rw [← List.append_assoc, ← hsplit]
    rw [hwhole]
    refine hkept.append (hlater.widen_all hdropped (fun e he => ?_) (List.cons_ne_nil _ _))
    exact Option.some.inj he ▸ rfl
  · have htokens : tokens t = words t := by
      rw [tokens_eq, chunks, List.splitOn_eq_singleton htab]
      cases t with
      | nil => rfl
      | cons c t => simp
    rw [htokens]
    exact respaced_words hfirst hlast

end Line
end TraceReport
