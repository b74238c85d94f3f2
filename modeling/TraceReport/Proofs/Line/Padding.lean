import TraceReport.Proofs.Line.QuotedValues

namespace TraceReport

theorem Text.mentions_cons_of_not_mem {c : Char} {sought : Text} (hc : c ∉ sought)
    (hne : sought ≠ []) (t : Text) : mentions (c :: t) sought = mentions t sought := by
  obtain ⟨d, rest, rfl⟩ := List.exists_cons_of_ne_nil hne
  have hd : (d == c) = false :=
    beq_eq_false_iff_ne.mpr fun heq => hc (heq ▸ List.mem_cons_self)
  rw [mentions, List.isPrefixOf_cons_cons, hd, Bool.false_and, Bool.false_or]

/-- A character that joins the first word of a text joins the first of its words. -/
theorem Text.exists_words_cons {c d : Char} (hc : isBlank c = false) (hd : isBlank d = false)
    (t : Text) : ∃ w ws, words (d :: t) = w :: ws ∧ words (c :: d :: t) = (c :: w) :: ws := by
  obtain ⟨w, ws, hsplit, -⟩ := exists_splitOnP_cons hd t
  refine ⟨d :: w, ws.filter fun w => !w.isEmpty, ?_, ?_⟩
  · rw [words_eq, hsplit]
    rfl
  · rw [words_eq, List.splitOnP_cons_eq_if_modifyHead, hsplit, hc]
    rfl

namespace Line

/-- A line whose first bracket has spaces behind it. -/
def padded (spaces : Nat) (rest : Text) : Text := '[' :: (List.replicate spaces ' ' ++ rest)

theorem mentions_padded {sought : Text} (hbracket : '[' ∉ sought) (hspace : ' ' ∉ sought)
    (hne : sought ≠ []) (spaces : Nat) (rest : Text) :
    (padded spaces rest).mentions sought = rest.mentions sought := by
  rw [padded, Text.mentions_cons_of_not_mem hbracket hne]
  induction spaces with
  | zero => rfl
  | succ spaces ih =>
    rw [List.replicate_succ, List.cons_append, Text.mentions_cons_of_not_mem hspace hne, ih]

/-- No mark of a dialect goes over the bracket or the spaces. -/
theorem apparentDialect_padded (spaces : Nat) (rest : Text) :
    apparentDialect (padded spaces rest) = apparentDialect (padded 0 rest) := by
  let marks : List Text := [switchName, "pmtrace".toList, "cat".toList, "payload".toList]
  have hplain : ∀ mark ∈ marks, '[' ∉ mark ∧ ' ' ∉ mark ∧ mark ≠ [] := by decide
  have hmentions : ∀ mark ∈ marks,
      (padded spaces rest).mentions mark = (padded 0 rest).mentions mark := fun mark hmark => by
    obtain ⟨hbracket, hspace, hne⟩ := hplain mark hmark
    rw [mentions_padded hbracket hspace hne, mentions_padded hbracket hspace hne]
  simp only [marks, List.forall_mem_cons] at hmentions
  obtain ⟨hswitch, hprovider, hcategory, hpayload, -⟩ := hmentions
  have huser : userDialect (padded spaces rest) = userDialect (padded 0 rest) := by
    rw [userDialect, userDialect, List.all_cons, List.all_cons, List.all_cons, hprovider, hcategory,
      hpayload]
    rfl
  rw [apparentDialect, apparentDialect, hswitch, huser]

theorem exists_tokens_cons_cons {c d : Char} (hc : Text.isBlank c = false)
    (hd : Text.isBlank d = false) (rest : Text) :
    ∃ w later, tokens (d :: rest) = w :: later ∧ tokens (c :: d :: rest) = (c :: w) :: later := by
  have htab {e : Char} (he : Text.isBlank e = false) : (e == '\t') = false := by
    refine beq_eq_false_iff_ne.mpr ?_
    rintro rfl
    exact absurd he (by decide)
  obtain ⟨chunk, parts, hsplit, -⟩ := Text.exists_splitOnP_cons (p := (· == '\t')) (htab hd) rest
  let later := parts.filter fun part => !part.isEmpty
  have hchunks : chunks (d :: rest) = (d :: chunk) :: later := by
    rw [chunks, List.splitOn_eq_splitOnP, hsplit]
    rfl
  have hlonger : chunks (c :: d :: rest) = (c :: d :: chunk) :: later := by
    rw [chunks, List.splitOn_eq_splitOnP, List.splitOnP_cons_eq_if_modifyHead, hsplit, htab hc]
    rfl
  obtain ⟨w, ws, hwords, hjoined⟩ := Text.exists_words_cons hc hd chunk
  refine ⟨w, ws ++ later, ?_, ?_⟩
  · rw [tokens_eq, hchunks]
    simp only [hwords, List.cons_append]
  · rw [tokens_eq, hlonger]
    simp only [hjoined, List.cons_append]

section

variable {d : Char} (hd : Text.isBlank d = false) (rest : Text)
include hd

/-- Of the spaces one is taken out. -/
theorem body_padded (spaces : Nat) :
    body (padded spaces (d :: rest)) =
      padded (spaces - 1) (d :: Text.dropEndWhile isLineEnd rest) := by
  have hend : isLineEnd d = false := by
    refine Bool.eq_false_iff.mpr fun h => ?_
    rcases Bool.or_eq_true_iff.mp h with h | h
    · exact absurd (beq_iff_eq.mp h ▸ hd) (by decide)
    · exact absurd (beq_iff_eq.mp h ▸ hd) (by decide)
  have hspace : d ≠ ' ' := by
    rintro rfl
    exact absurd hd (by decide)
  have hkept : Text.dropEndWhile isLineEnd (padded spaces (d :: rest)) =
      padded spaces (d :: Text.dropEndWhile isLineEnd rest) :=
    Text.dropEndWhile_append_cons hend ('[' :: List.replicate spaces ' ') rest
  rw [body_eq, hkept]
  cases spaces with
  | zero => simp [padded, unpadded, hspace]
  | succ spaces => rfl

theorem tab_not_mem_head? (spaces : Nat) :
    '\t' ∉ (List.replicate spaces ' ' ++ d :: rest).head? := by
  have htab : d ≠ '\t' := by
    rintro rfl
    exact absurd hd (by decide)
  cases spaces with
  | zero => simpa using htab
  | succ spaces => simp [List.replicate_succ]

/-- Spaces before a text are no tokens. -/
theorem tokens_spaces (spaces : Nat) :
    tokens (List.replicate spaces ' ' ++ d :: rest) = tokens (d :: rest) := by
  induction spaces with
  | zero => rfl
  | succ spaces ih =>
    have hopen : '\t' ∉ ([] : Text) := List.not_mem_nil
    have hsplit := tokens_append_space hopen (tab_not_mem_head? hd rest spaces)
    rw [List.replicate_succ, List.cons_append]
    exact hsplit.trans ih

/-- A bracket with spaces behind it is a token of its own. -/
theorem tokens_padded_succ (spaces : Nat) :
    tokens (padded (spaces + 1) (d :: rest)) = ['['] :: tokens (d :: rest) := by
  have hopen : '\t' ∉ ['['] := by decide
  have hsplit := tokens_append_space hopen (tab_not_mem_head? hd rest spaces)
  have hbracket : Text.words ['['] = [['[']] := by decide
  rw [hbracket, tokens_spaces hd] at hsplit
  exact hsplit

/-- With more than one space before it, a stamp loses its bracket. -/
theorem exists_tokens_body_padded :
    ∃ w later, tokens (body (padded 0 (d :: rest))) = ('[' :: w) :: later ∧
      ∀ spaces, 2 ≤ spaces → tokens (body (padded spaces (d :: rest))) = ['['] :: w :: later := by
  obtain ⟨w, later, hplain, hbracket⟩ := exists_tokens_cons_cons (c := '[') (by decide) hd
    (Text.dropEndWhile isLineEnd rest)
  refine ⟨w, later, ?_, fun spaces hmany => ?_⟩
  · rw [body_padded hd]
    exact hbracket
  · obtain ⟨more, rfl⟩ := Nat.exists_eq_add_of_le' hmany
    rw [body_padded hd, Nat.add_sub_assoc (by decide), tokens_padded_succ hd, hplain]

end

end Line

namespace Record

section

variable {clock : Clock} {stamp : Text} (hstamp : clock.micros? stamp = none)
include hstamp

theorem read_badTimestamp {dialect : Dialect} {rest : List Text}
    (hlen : dialect.minimum ≤ (stamp :: rest).length) :
    read clock dialect (stamp :: rest) = .error (.badTimestamp stamp) := by
  obtain ⟨enough, pidToken, tidToken, payload, record, hmap, -⟩ := read_eq_map clock hlen
  rw [hmap, map_eq_error_iff, Header.read_eq_badTimestamp_iff]
  exact ⟨rfl, hstamp⟩

theorem read_ne_ok (dialect : Dialect) (rest : List Text) (record : Record) :
    read clock dialect (stamp :: rest) ≠ .ok record := fun hread => by
  have htime := micros?_of_read hread
  rw [← Option.some.inj (head?_of_read hread), hstamp] at htime
  exact Option.some_ne_none _ htime.symm

end

/-- A record is read alike without and with one space before its stamp. More of them make the
bracket a token of its own and each other token move up by one: the line still looks like a record
of its dialect, but the bracket is refused as its stamp, and no dialect reads it. -/
theorem padding_read (clock : Clock) (dialect : Dialect) {d : Char} (hd : d.isDigit = true)
    {rest : Text} {record : Record}
    (hread : read clock dialect (Line.tokens (Line.body ('[' :: d :: rest))) = .ok record)
    (spaces : Nat) :
    let line := Line.body ('[' :: d :: rest)
    let spaced := Line.body (Line.padded spaces (d :: rest))
    Line.apparentDialect spaced = Line.apparentDialect line ∧
    (spaces ≤ 1 → spaced = line ∧ read clock dialect (Line.tokens spaced) = .ok record) ∧
    (2 ≤ spaces →
      (∃ w later, Line.tokens line = ('[' :: w) :: later ∧
        Line.tokens spaced = ['['] :: w :: later) ∧
      read clock dialect (Line.tokens spaced) = .error (.badTimestamp ['[']) ∧
      ∀ other found, read clock other (Line.tokens spaced) ≠ .ok found) := by
  intro line spaced
  have hblank : Text.isBlank d = false := Text.isBlank_of_isDigit hd
  have hline : line = Line.padded 0 (d :: Text.dropEndWhile Line.isLineEnd rest) :=
    Line.body_padded hblank rest 0
  have hspaced : spaced = Line.padded (spaces - 1) (d :: Text.dropEndWhile Line.isLineEnd rest) :=
    Line.body_padded hblank rest spaces
  refine ⟨?_, fun hone => ?_, fun hmany => ?_⟩
  · rw [hspaced, hline, Line.apparentDialect_padded]
  · have hsame : spaced = line := by rw [hspaced, hline, Nat.sub_eq_zero_of_le hone]
    exact ⟨hsame, hsame ▸ hread⟩
  · obtain ⟨w, later, hplain, hpadded⟩ := Line.exists_tokens_body_padded hblank rest
    have htokens : Line.tokens spaced = ['['] :: w :: later := hpadded spaces hmany
    have hlen : dialect.minimum ≤ (['['] :: w :: later).length := by
      have hminimum : dialect.minimum ≤ (Line.tokens line).length := minimum_of_read hread
      rw [show Line.tokens line = ('[' :: w) :: later from hplain] at hminimum
      exact Nat.le_succ_of_le hminimum
    have hstamp : clock.micros? ['['] = none := rfl
    refine ⟨⟨w, later, hplain, htokens⟩, ?_, fun other found => ?_⟩
    · rw [htokens, read_badTimestamp hstamp hlen]
    · rw [htokens]
      exact read_ne_ok hstamp other _ found

/-- The line of a message after the first digit of its stamp. -/
def messageRest : Text :=
  ("0.000000200] (+0.1) webos pmtrace:message: \x7b cpu_id = 1 \x7d, " ++
    "\x7b procname = \"AppMgr\", vpid = 100, vtid = 101 \x7d, " ++
    "\x7b text = \"hi\", level = 2 \x7d").toList

example : '[' :: '1' :: messageRest = messageHeading.line (messagePayload "hi".toList) := by
  decide +kernel

/-- The line of a message with one space, and with three. -/
theorem padding_read_message :
    let readAs (raw : Text) := read ⟨none⟩ .plain (Line.tokens (Line.body raw))
    '1'.isDigit = true ∧
    ∃ record, readAs ('[' :: '1' :: messageRest) = .ok record ∧
      readAs ('[' :: ' ' :: '1' :: messageRest) = .ok record ∧
      readAs ('[' :: ' ' :: ' ' :: ' ' :: '1' :: messageRest) =
        .error (.badTimestamp ['[']) := by
  intro readAs
  obtain ⟨record, hread⟩ : ∃ record, readAs ('[' :: '1' :: messageRest) = .ok record :=
    exists_ok_of_isOk (by decide +kernel)
  have hdigit : '1'.isDigit = true := by decide
  have hone := (padding_read ⟨none⟩ .plain hdigit hread 1).2.1 (by decide)
  have hthree := (padding_read ⟨none⟩ .plain hdigit hread 3).2.2 (by decide)
  exact ⟨hdigit, record, hread, hone.2, hthree.2.1⟩

/-- Spaces before the stamp of a line leave the record that is read from it as it is. -/
def KeepsRecord (clock : Clock) (d : Char) (rest : Text) (spaces : Nat) : Prop :=
  let readAs (raw : Text) :=
    read clock (Line.apparentDialect (Line.body raw)) (Line.tokens (Line.body raw))
  d.isDigit = true → (readAs ('[' :: d :: rest)).isOk = true →
    readAs (Line.padded spaces (d :: rest)) = readAs ('[' :: d :: rest)

instance (clock : Clock) (d : Char) (rest : Text) (spaces : Nat) :
    Decidable (KeepsRecord clock d rest spaces) :=
  inferInstanceAs (Decidable (_ → _ → _))

/-- With two spaces the line of a message is no record any more. -/
theorem not_keepsRecord : ¬KeepsRecord ⟨none⟩ '1' messageRest 2 := by decide +kernel

end Record
end TraceReport
