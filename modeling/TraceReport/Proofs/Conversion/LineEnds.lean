import TraceReport.Proofs.Conversion.Concatenation
import TraceReport.Proofs.Text.Utf8
import TraceReport.Proofs.Text.Words

namespace TraceReport

namespace Log

/-- Whether a byte belongs to line ends. -/
def endsLine (b : UInt8) : Bool := b == 10 || b == 13

/-- A line without its line end. -/
def content (line : Bytes) : Bytes := line.rdropWhile endsLine

/-- The lines of a log, each without its line end. -/
def contents (input : Bytes) : List Bytes := (lines input).map content

/-- A log with a carriage return before every line feed. -/
def returned (input : Bytes) : Bytes := input.flatMap fun b => if b = 10 then [13, 10] else [b]

theorem content_append_ends (line : Bytes) :
    ∃ ends, line = content line ++ ends ∧ ∀ b ∈ ends, endsLine b = true := by
  refine ⟨line.rtakeWhile endsLine, (List.rdropWhile_append_rtakeWhile).symm, ?_⟩
  intro b hb
  exact List.mem_rtakeWhile_imp hb

theorem content_append {ends : Bytes} (h : ∀ b ∈ ends, endsLine b = true) (line : Bytes) :
    content (line ++ ends) = content line := by
  have hends : ∀ b ∈ ends.reverse, endsLine b = true := fun b hb => h b (List.mem_reverse.mp hb)
  rw [content, List.rdropWhile, List.reverse_append, List.dropWhile_append_of_pos hends]
  rfl

theorem content_cons (b : UInt8) (line : Bytes) :
    content (b :: line) = content (b :: content line) := by
  obtain ⟨ends, hline, hends⟩ := content_append_ends line
  calc content (b :: line) = content ((b :: content line) ++ ends) := by
        rw [List.cons_append, ← hline]
    _ = content (b :: content line) := content_append hends _

theorem contents_lineFeed (rest : Bytes) : contents (10 :: rest) = [] :: contents rest := rfl

/-- What a byte does to the content of the lines after it. -/
theorem contents_cons {b : UInt8} (hb : b ≠ 10) (rest : Bytes) :
    contents (b :: rest) =
      match contents rest with
      | [] => [content [b]]
      | line :: more => content (b :: line) :: more := by
  rw [contents, lines_cons, if_neg hb, contents]
  cases lines rest with
  | nil => rfl
  | cons line more => rw [List.map_cons, List.map_cons, content_cons]

theorem contents_returned (input : Bytes) : contents (returned input) = contents input := by
  induction input with
  | nil => rfl
  | cons b rest ih =>
    rw [returned, List.flatMap_cons, ← returned]
    by_cases hb : b = 10
    · subst hb
      have hreturn : contents (13 :: 10 :: returned rest) = [] :: contents (returned rest) := by
        rw [contents_cons (by decide), contents_lineFeed]
        rfl
      rw [if_pos rfl, contents_lineFeed, ← ih]
      exact hreturn
    · rw [if_neg hb, List.singleton_append, contents_cons hb, contents_cons hb, ih]

/-- A line feed after the last line closes it, and begins no other. -/
theorem contents_append_lineFeed {input : Bytes} (hne : input ≠ [])
    (hopen : input.getLast? ≠ some 10) : contents (input ++ [10]) = contents input := by
  induction input with
  | nil => exact absurd rfl hne
  | cons b rest ih =>
    cases rest with
    | nil =>
      have hb : b ≠ 10 := by simpa using hopen
      rw [List.singleton_append, contents_cons hb, contents_cons hb]
      rfl
    | cons next more =>
      have hrest : contents ((next :: more) ++ [10]) = contents (next :: more) := by
        apply ih (List.cons_ne_nil _ _)
        rwa [List.getLast?_cons_cons] at hopen
      rw [List.cons_append]
      by_cases hb : b = 10
      · subst hb
        rw [contents_lineFeed, contents_lineFeed, hrest]
      · rw [contents_cons hb, contents_cons hb, hrest]

end Log

/-- The body of a line is that of its content, also where the line end cuts a character. -/
theorem Line.body_content (line : Bytes) :
    Line.body (Utf8.decodeLossy line) = Line.body (Utf8.decodeLossy (Log.content line)) := by
  obtain ⟨ends, hline, hends⟩ := Log.content_append_ends line
  have hbyte : ∀ b ∈ ends, b = 10 ∨ b = 13 := by
    intro b hb
    simpa [Log.endsLine] using hends b hb
  have hascii : ∀ b ∈ ends, b < 0x80 := by
    intro b hb
    rcases hbyte b hb with rfl | rfl <;> decide
  have hdropped : ∀ c ∈ ends.map fun b => Char.ofNat b.toNat, isLineEnd c = true := by
    intro c hc
    obtain ⟨b, hb, rfl⟩ := List.mem_map.mp hc
    rcases hbyte b hb with rfl | rfl <;> decide
  have hbody : Text.dropEndWhile isLineEnd (Utf8.decodeLossy line) =
      Text.dropEndWhile isLineEnd (Utf8.decodeLossy (Log.content line)) := by
    nth_rewrite 1 [hline]
    rw [Utf8.decodeLossy_append_ascii _ hascii, Text.dropEndWhile_append,
      Text.dropEndWhile_of_forall hdropped]
    rfl
  rw [body, body, hbody]

namespace Job

theorem step_of_body (job : Job) (p : Progress) {raw other : Text}
    (h : Line.body raw = Line.body other) : job.step p raw = job.step p other := by
  simp only [step, h]

/-- A run reads of every line only its content. -/
theorem run_contents (job : Job) (input : Bytes) :
    job.run (Log.texts input) = job.run ((Log.contents input).map Utf8.decodeLossy) := by
  have hfeed : (fun run line => job.feed run (Utf8.decodeLossy line)) =
      fun run line => job.feed run (Utf8.decodeLossy (Log.content line)) := by
    funext run line
    rw [feed, feed, job.step_of_body run.progress (Line.body_content line)]
  rw [run, run, Log.texts, Log.contents, List.foldl_map, List.foldl_map, List.foldl_map, hfeed]

end Job

theorem convert_of_contents (settings : Settings) (options : Options) (room : Option Nat)
    {a b : Bytes} (h : Log.contents a = Log.contents b) :
    convert settings options room a = convert settings options room b := by
  rw [convert, convert]
  cases Job.plan settings options with
  | error fault => rfl
  | ok job =>
    have hrun : job.run (Log.texts a) = job.run (Log.texts b) := by
      rw [job.run_contents, job.run_contents, h]
    simp only [Job.convert, hrun]

/-- Whether lines end with a line feed or with a carriage return before it, and whether the last
one ends at all, shows neither in the report nor in how its conversion ends. -/
theorem convert_line_ends (settings : Settings) (options : Options) (room : Option Nat)
    (input : Bytes) :
    convert settings options room (Log.returned input) = convert settings options room input ∧
    (input ≠ [] → input.getLast? ≠ some 10 →
      convert settings options room (input ++ [10]) = convert settings options room input) := by
  refine ⟨convert_of_contents settings options room (Log.contents_returned input), ?_⟩
  intro hne hopen
  exact convert_of_contents settings options room (Log.contents_append_lineFeed hne hopen)

/-- The last of two lines has no line feed, and breaks off inside a character. -/
theorem convert_line_ends_cut :
    let input := Utf8.encode Job.switchLine ++ (Utf8.encode (Job.userLine "App")).dropLast ++
      [0xE2, 0x80]
    let converted := convert Job.allViews Options.new none
    (input ≠ [] ∧ input.getLast? ≠ some 10) ∧
    (Log.returned input ≠ input ∧ (converted input).2.isOk = true) ∧
    converted (Log.returned input) = converted input ∧
    converted (input ++ [10]) = converted input := by
  intro input converted
  have hopen : input ≠ [] ∧ input.getLast? ≠ some 10 := by decide +kernel
  have hread : Log.returned input ≠ input ∧ (converted input).2.isOk = true := by decide +kernel
  obtain ⟨hreturned, hclosed⟩ := convert_line_ends Job.allViews Options.new none input
  exact ⟨hopen, hread, hreturned, hclosed hopen.1 hopen.2⟩

end TraceReport
