import TraceReport.Line
import TraceReport.Proofs.Text.Words

namespace TraceReport.Line

open Text

section Body

variable {c d : Char} {rest : Text}

/-- What follows a line that has no line end yet keeps its own padding. -/
theorem body_append (hlast : ∀ e ∈ (c :: d :: rest).getLast?, isLineEnd e = false) (later : Text) :
    body (c :: d :: rest ++ later) =
      body (c :: d :: rest) ++ dropEndWhile isLineEnd later := by
  have hkept : dropEndWhile isLineEnd (c :: d :: rest ++ later) =
      c :: d :: (rest ++ dropEndWhile isLineEnd later) := by
    rw [dropEndWhile_append, dropEndWhile_of_getLast? hlast]
    split
    case isTrue hempty => rw [List.isEmpty_iff.mp hempty, List.append_nil]
    case isFalse => rfl
  rw [body, body, hkept, dropEndWhile_of_getLast? hlast]
  by_cases hd : d = ' '
  · subst hd
    by_cases hascii : c.toNat < 0x80
    · simp only [if_pos hascii, List.cons_append]
    · simp only [if_neg hascii, List.cons_append]
  · split
    · simp_all
    · split
      · simp_all
      · rfl

theorem body_eq_self (hd : d ≠ ' ')
    (hlast : ∀ e ∈ (c :: d :: rest).getLast?, isLineEnd e = false) :
    body (c :: d :: rest) = c :: d :: rest := by
  rw [body, dropEndWhile_of_getLast? hlast]
  split
  · simp_all
  · rfl

/-- A line without the space that pads its stamp. -/
def unpadded : Text → Text
  | c :: ' ' :: rest => if c.toNat < 0x80 then c :: rest else c :: ' ' :: rest
  | t => t

theorem body_eq (raw : Text) : body raw = unpadded (dropEndWhile isLineEnd raw) := rfl

theorem unpadded_sublist (t : Text) : (unpadded t).Sublist t := by
  unfold unpadded
  split
  · split
    · exact (List.sublist_cons_self _ _).cons_cons _
    · exact List.Sublist.refl _
  · exact List.Sublist.refl _

/-- A line falls apart at a character that is no line end, but for the first two. -/
theorem body_append_cons (hc : isLineEnd c = false) {front : Text} (hlen : 2 ≤ front.length)
    (back : Text) :
    body (front ++ c :: back) = unpadded front ++ c :: dropEndWhile isLineEnd back := by
  rw [body_eq, dropEndWhile_append_cons hc]
  match front, hlen with
  | first :: second :: rest, _ =>
    by_cases hpad : second = ' '
    · subst hpad
      by_cases hascii : first.toNat < 0x80
      · simp only [unpadded, List.cons_append, if_pos hascii]
      · simp only [unpadded, List.cons_append, if_neg hascii]
    · simp [unpadded, hpad]

/-- Only line ends and padding are dropped from a line. -/
theorem mem_body {raw : Text} (hc : c ∈ raw) (hspace : c ≠ ' ') (hend : isLineEnd c = false) :
    c ∈ body raw := by
  obtain ⟨dropped, hraw, hends⟩ := exists_append_dropEndWhile isLineEnd raw
  rw [hraw, List.mem_append] at hc
  have hkept : c ∈ dropEndWhile isLineEnd raw :=
    hc.resolve_right fun hd => Bool.eq_false_iff.mp hend (hends c hd)
  rw [body]
  split
  case h_1 d rest hsplit =>
    rw [hsplit] at hkept
    split
    · simpa [hspace] using hkept
    · exact hkept
  case h_2 => exact hkept

end Body

/-- The stretches between tabs that are not empty. -/
def chunks (line : Text) : List Text := (line.splitOn '\t').filter fun part => !part.isEmpty

theorem tokens_eq (line : Text) :
    tokens line = match chunks line with
      | [] => []
      | first :: rest => words first ++ rest := by
  rw [tokens, splitAt_eq_splitOn]
  rfl

theorem infix_of_mem_tokens {line token : Text} (h : token ∈ tokens line) : token <:+: line := by
  rw [tokens_eq] at h
  have hchunk : ∀ chunk ∈ chunks line, chunk <:+: line := fun chunk hm =>
    infix_of_mem_splitOnP (List.mem_filter.mp hm).1
  cases hparts : chunks line with
  | nil => simp [hparts] at h
  | cons first rest =>
    rw [hparts] at h hchunk
    rcases List.mem_append.mp h with hword | hlater
    · rw [words_eq] at hword
      exact (infix_of_mem_splitOnP (List.mem_filter.mp hword).1).trans (hchunk first (by simp))
    · exact hchunk token (List.mem_cons_of_mem _ hlater)

/-- A line that begins with no blank begins with a word. -/
theorem exists_tokens_cons {c : Char} (hc : Text.isBlank c = false) (rest : Text) :
    ∃ w later, tokens (c :: rest) = w :: later ∧ Solid w := by
  have htab : (c == '\t') = false := by
    refine beq_eq_false_iff_ne.mpr fun h => ?_
    rw [h] at hc
    exact absurd hc (by decide)
  obtain ⟨chunk, chunks, hchunks, -⟩ := exists_splitOnP_cons (p := (· == '\t')) htab rest
  obtain ⟨w, ws, hwords, hw⟩ := exists_splitOnP_cons hc chunk
  refine ⟨c :: w, ws.filter (fun w => !w.isEmpty) ++ chunks.filter fun part => !part.isEmpty,
    ?_, hw⟩
  rw [tokens_eq, Line.chunks, List.splitOn_eq_splitOnP, hchunks, List.filter_cons_of_pos (by simp)]
  simp only [words_eq, hwords]
  rw [List.filter_cons_of_pos (by simp), List.cons_append]

/-- A word before a colon is a part of its own. -/
theorem colonParts_append {part : Text} (hword : IsWord part) (hcolon : ':' ∉ part) (rest : Text) :
    colonParts (part ++ ':' :: rest) = part :: colonParts rest := by
  simp only [colonParts, splitAt_eq_splitOn]
  rw [List.splitOn_append_cons_self_of_not_mem hcolon, List.map_cons, trim_of_solid hword.2,
    List.filter_cons_of_pos (by simp [hword.1])]

/-- What follows a text without tabs and a space is read by itself, unless it begins with a tab. -/
theorem tokens_append_space {front back : Text} (hfront : '\t' ∉ front)
    (hback : '\t' ∉ back.head?) : tokens (front ++ ' ' :: back) = words front ++ tokens back := by
  have hopen : '\t' ∉ front ++ [' '] := by simp [hfront]
  obtain ⟨before, last, first, after, hf, hb, hall⟩ :=
    splitOnP_append (· == '\t') (front ++ [' ']) back
  rw [← List.splitOn_eq_splitOnP, List.splitOn_eq_singleton hopen] at hf
  obtain ⟨rfl, rfl⟩ : before = [] ∧ last = front ++ [' '] := by
    cases before with
    | nil => exact ⟨rfl, (List.singleton_inj.mp hf).symm⟩
    | cons w ws => simp at hf
  have hchunks : chunks (front ++ ' ' :: back) =
      (front ++ ' ' :: first) :: after.filter fun part => !part.isEmpty := by
    rw [chunks, List.splitOn_eq_splitOnP]
    simp only [List.append_assoc, List.singleton_append, List.nil_append] at hall
    rw [hall, List.filter_cons_of_pos (by simp)]
  have hrest : tokens back = words first ++ after.filter fun part => !part.isEmpty := by
    rw [tokens_eq, chunks, List.splitOn_eq_splitOnP, hb]
    cases back with
    | nil =>
      obtain ⟨rfl, rfl⟩ := List.cons.inj (List.splitOnP_nil.symm.trans hb)
      rfl
    | cons c rest =>
      have hc : (c == '\t') = false :=
        beq_eq_false_iff_ne.mpr fun htab => hback (by rw [htab, List.head?_cons]; rfl)
      obtain ⟨w, ws, hparts⟩ := List.exists_cons_of_ne_nil (List.splitOnP_ne_nil (· == '\t') rest)
      rw [List.splitOnP_cons_eq_if_modifyHead, hc, hparts] at hb
      obtain ⟨rfl, rfl⟩ := List.cons.inj hb
      rfl
  rw [tokens_eq, hchunks, hrest]
  simp only [words_append_blank (c := ' ') (by decide), List.append_assoc]

/-- Words with one space between them are the tokens of their line. -/
theorem tokens_joinWith {ws : List Text} (h : ∀ w ∈ ws, IsWord w) :
    tokens (joinWith [' '] ws) = ws := by
  have hplain : '\t' ∉ joinWith [' '] ws := fun htab =>
    absurd (eq_space_of_mem_joinWith h htab (by decide)) (by decide)
  have hwords := words_joinWith h
  rw [tokens_eq, chunks, List.splitOn_eq_singleton hplain]
  cases hline : joinWith [' '] ws with
  | nil =>
    rw [hline] at hwords
    exact hwords
  | cons c rest =>
    rw [hline] at hwords
    simpa using hwords

section Growing

/-- The second list goes on where the first ends; of the first only the last element may differ. -/
def Grows (xs ys : List Text) : Prop :=
  ∃ shared, shared <+: xs ∧ shared <+: ys ∧ xs.length ≤ shared.length + 1 ∧ xs.length ≤ ys.length

variable {xs ys : List Text}

theorem Grows.getElem? (h : Grows xs ys) {i : Nat} (hi : i + 1 < xs.length) : ys[i]? = xs[i]? := by
  obtain ⟨shared, hx, hy, hlen, -⟩ := h
  have hshared : i < shared.length := by omega
  rw [List.prefix_iff_getElem?.mp hx i hshared, List.prefix_iff_getElem?.mp hy i hshared]

theorem Grows.length_le (h : Grows xs ys) : xs.length ≤ ys.length := h.choose_spec.2.2.2

theorem Grows.of_prefix (h : xs <+: ys) : Grows xs ys :=
  ⟨xs, List.prefix_refl xs, h, Nat.le_succ _, h.length_le⟩

theorem Grows.append_left (zs : List Text) (h : Grows xs ys) : Grows (zs ++ xs) (zs ++ ys) := by
  obtain ⟨shared, hx, hy, hlen, hle⟩ := h
  refine ⟨zs ++ shared, List.prefix_append_right_inj zs |>.mpr hx,
    List.prefix_append_right_inj zs |>.mpr hy, ?_, ?_⟩
  · simp only [List.length_append]
    omega
  · simp only [List.length_append]
    omega

theorem Grows.append_right (h : Grows xs ys) (zs : List Text) : Grows xs (ys ++ zs) := by
  obtain ⟨shared, hx, hy, hlen, hle⟩ := h
  exact ⟨shared, hx, hy.trans (List.prefix_append ys zs), hlen, by rw [List.length_append]; omega⟩

theorem Grows.of_last (v w : Text) (ws : List Text) : Grows [v] (w :: ws) :=
  ⟨[], List.nil_prefix, List.nil_prefix, by simp, by simp⟩

end Growing

/-- The stretches of a text that are not empty, when another text follows it. -/
theorem grows_splitOnP (p : Char → Bool) (a b : Text) :
    Grows ((a.splitOnP p).filter fun w => !w.isEmpty)
      (((a ++ b).splitOnP p).filter fun w => !w.isEmpty) := by
  obtain ⟨before, last, first, after, ha, -, hab⟩ := splitOnP_append p a b
  rw [ha, hab, List.filter_append, List.filter_append]
  refine Grows.append_left _ ?_
  cases last with
  | nil => exact Grows.of_prefix List.nil_prefix
  | cons c rest => exact Grows.of_last (c :: rest) (c :: rest ++ first) _

/-- What is added to a line leaves its tokens as they are, but for the last. -/
theorem grows_tokens (a b : Text) : Grows (tokens a) (tokens (a ++ b)) := by
  obtain ⟨before, last, first, after, ha, -, hab⟩ := splitOnP_append (· == '\t') a b
  have hwords (front back : Text) : Grows (words front) (words (front ++ back)) := by
    rw [words_eq, words_eq]
    exact grows_splitOnP Text.isBlank front back
  simp only [tokens_eq, chunks, List.splitOn_eq_splitOnP, ha, hab, List.filter_append]
  cases before.filter fun part => !part.isEmpty with
  | nil =>
    cases last with
    | nil => exact Grows.of_prefix List.nil_prefix
    | cons c rest =>
      simp only [List.nil_append, List.filter_cons_of_pos, List.isEmpty_cons, Bool.not_false,
        List.filter_nil, List.append_nil, List.cons_append]
      exact (hwords (c :: rest) first).append_right _
  | cons chunk later =>
    simp only [List.cons_append]
    refine Grows.append_left _ (Grows.append_left _ ?_)
    cases last with
    | nil => exact Grows.of_prefix List.nil_prefix
    | cons c rest => exact Grows.of_last (c :: rest) (c :: rest ++ first) _

end TraceReport.Line
