import TraceReport.Proofs.Line.Tokens
import TraceReport.Proofs.Numeral
import TraceReport.Record

namespace TraceReport

/-- What every printed record says before its payload: when, on which machine, on which core and
about which process. -/
structure Heading where
  seconds : Text
  fraction : Text
  /-- the time since the record before -/
  elapsed : Text
  host : Text
  core : Core
  process : Text
  seconds_digits : Json.Digits seconds
  fraction_digits : Json.Digits fraction
  elapsed_solid : Text.Solid elapsed
  host_word : Text.IsWord host
  host_noColon : ':' ∉ host
  core_le : core ≤ Numeral.maxWord32
  process_solid : Text.Solid process
  process_noQuote : '"' ∉ process
  process_noComma : ',' ∉ process

namespace Heading

def stamp (h : Heading) : Text := '[' :: h.seconds ++ '.' :: h.fraction ++ [']']

/-- The text before the payload; records differ in how they name their event and in their ids. -/
def text (h : Heading) (event ids : Text) : Text :=
  h.stamp ++ " (+".toList ++ h.elapsed ++ ") ".toList ++ h.host ++ ' ' :: event ++
    ": \x7b cpu_id = ".toList ++ Numeral.decimal h.core ++
    " \x7d, \x7b procname = \"".toList ++ h.process ++ "\", ".toList ++ ids ++ " \x7d, ".toList

def words (h : Heading) (event : Text) (ids : List Text) : List Text :=
  [h.stamp, "(+".toList ++ h.elapsed ++ [')'], h.host, event ++ [':'], ['\x7b'], "cpu_id".toList,
    ['='], Numeral.decimal h.core, "\x7d,".toList, ['\x7b'], "procname".toList, ['='],
    '"' :: h.process ++ "\",".toList] ++ ids ++ ["\x7d,".toList]

theorem text_eq (h : Heading) (event : Text) {ids : List Text} (hids : ids ≠ []) :
    h.text event (Text.joinWith [' '] ids) = Text.joinWith [' '] (h.words event ids) ++ [' '] := by
  have hclosed : Text.joinWith [' '] (ids ++ ["\x7d,".toList]) =
      Text.joinWith [' '] ids ++ " \x7d,".toList := by
    rw [Text.joinWith_append ' ' hids (by simp), Text.joinWith_singleton]
    rfl
  obtain ⟨id, rest, hcons⟩ := List.exists_cons_of_ne_nil
    (List.append_ne_nil_of_right_ne_nil ids (List.cons_ne_nil "\x7d,".toList []))
  rw [words, List.append_assoc, hcons]
  simp only [List.cons_append, List.nil_append, Text.joinWith_cons_cons]
  rw [← hcons, hclosed]
  simp [text]

theorem stamp_isWord (h : Heading) : Text.IsWord h.stamp := by
  refine ⟨by simp [stamp], ?_⟩
  simp only [stamp, List.cons_append, Text.solid_cons, Text.solid_append, Text.solid_nil]
  exact ⟨by decide, ⟨h.seconds_digits.isWord.2, by decide, h.fraction_digits.isWord.2⟩, by decide,
    trivial⟩

theorem words_isWord (h : Heading) {event : Text} (hevent : Text.Solid event) {ids : List Text}
    (hids : ∀ w ∈ ids, Text.IsWord w) : ∀ w ∈ h.words event ids, Text.IsWord w := by
  have helapsed : Text.IsWord ("(+".toList ++ h.elapsed ++ [')']) :=
    ⟨by simp, by
      rw [Text.solid_append, Text.solid_append]
      exact ⟨⟨by decide, h.elapsed_solid⟩, by decide⟩⟩
  have hname : Text.IsWord (event ++ [':']) :=
    ⟨by simp, Text.solid_append.mpr ⟨hevent, by decide⟩⟩
  have hprocess : Text.IsWord ('"' :: h.process ++ "\",".toList) :=
    ⟨by simp, by
      rw [List.cons_append, Text.solid_cons, Text.solid_append]
      exact ⟨by decide, h.process_solid, by decide⟩⟩
  refine List.forall_mem_append.mpr ⟨List.forall_mem_append.mpr ⟨?_, hids⟩, by decide⟩
  simp only [List.forall_mem_cons]
  exact ⟨h.stamp_isWord, helapsed, h.host_word, hname, by decide, by decide, by decide,
    Numeral.decimal_isWord _, by decide, by decide, by decide, by decide, hprocess, by simp⟩

section

variable (h : Heading) {event : Text} {ids : List Text}

/-- The words of a heading are its tokens, and those of the payload follow. -/
theorem tokens_text (hevent : Text.Solid event) (hids : ∀ w ∈ ids, Text.IsWord w)
    (hne : ids ≠ []) {payload : Text} (hpayload : '\t' ∉ payload.head?) :
    Line.tokens (h.text event (Text.joinWith [' '] ids) ++ payload) =
      h.words event ids ++ Line.tokens payload := by
  have hwords := h.words_isWord hevent hids
  have hnoTab : '\t' ∉ Text.joinWith [' '] (h.words event ids) := fun htab =>
    absurd (Text.eq_space_of_mem_joinWith hwords htab (by decide)) (by decide)
  rw [text_eq h event hne, List.append_assoc, List.singleton_append,
    Line.tokens_append_space hnoTab hpayload, Text.words_joinWith hwords]

/-- Nothing but its line end is dropped from a printed line. -/
theorem body_text (event ids : Text) {payload ending : Text}
    (hlast : ∀ c ∈ payload.getLast?, Line.isLineEnd c = false)
    (hending : ∀ c ∈ ending, Line.isLineEnd c = true) :
    Line.body (h.text event ids ++ payload ++ ending) = h.text event ids ++ payload := by
  obtain ⟨c, rest, hseconds⟩ := List.exists_cons_of_ne_nil h.seconds_digits.ne_nil
  have hdigit : c ≠ ' ' := by
    rintro rfl
    exact absurd (h.seconds_digits.digit ' ' (by simp [hseconds])) (by decide)
  obtain ⟨tail, htext⟩ : ∃ tail, h.text event ids ++ payload = '[' :: c :: tail := by
    simp [text, stamp, hseconds]
  have hclosed : ∀ e ∈ (h.text event ids ++ payload).getLast?, Line.isLineEnd e = false := by
    intro e he
    rw [List.getLast?_append] at he
    cases hp : payload.getLast? with
    | some d => exact hlast e (by simpa [hp] using he)
    | none =>
      have hspace : (h.text event ids).getLast? = some ' ' := by
        rw [text, List.getLast?_append]
        rfl
      obtain rfl : ' ' = e := by simpa [hp, hspace] using he
      decide
  rw [htext] at hclosed ⊢
  rw [Line.body_append hclosed, Line.body_eq_self hdigit hclosed,
    Text.dropEndWhile_of_forall hending, List.append_nil]

end

end Heading

/-- What a user record says before its payload. -/
structure UserHeading extends Heading where
  provider : Text
  event : Text
  pid : ProcessId
  tid : ThreadId
  provider_word : Text.IsWord provider
  provider_noColon : ':' ∉ provider
  event_word : Text.IsWord event
  event_noColon : ':' ∉ event
  pid_fits : -Numeral.signedRange ≤ pid ∧ pid < Numeral.signedRange
  tid_fits : -Numeral.signedRange ≤ tid ∧ tid < Numeral.signedRange

namespace UserHeading

def line (h : UserHeading) (payload : Text) : Text :=
  h.text (h.provider ++ ':' :: h.event)
    ("vpid = ".toList ++ Numeral.signed h.pid ++ ", vtid = ".toList ++ Numeral.signed h.tid) ++
    payload

def tokens (h : UserHeading) : List Text :=
  h.words (h.provider ++ ':' :: h.event)
    ["vpid".toList, ['='], Numeral.signed h.pid ++ [','], "vtid".toList, ['='],
      Numeral.signed h.tid]

def idWords (h : UserHeading) : List Text :=
  ["vpid".toList, ['='], Numeral.signed h.pid ++ [','], "vtid".toList, ['='],
    Numeral.signed h.tid]

theorem line_eq (h : UserHeading) (payload : Text) :
    h.line payload =
      h.text (h.provider ++ ':' :: h.event) (Text.joinWith [' '] h.idWords) ++ payload := by
  simp [line, idWords, Text.joinWith_cons_cons]

theorem provider_event_solid (h : UserHeading) : Text.Solid (h.provider ++ ':' :: h.event) :=
  Text.solid_append.mpr ⟨h.provider_word.2, Text.solid_cons.mpr ⟨by decide, h.event_word.2⟩⟩

theorem idWords_isWord (h : UserHeading) : ∀ w ∈ h.idWords, Text.IsWord w := by
  have hpid : Text.IsWord (Numeral.signed h.pid ++ [',']) :=
    ⟨by simp, Text.solid_append.mpr ⟨(Numeral.signed_isWord _).2, by decide⟩⟩
  simp only [idWords, List.forall_mem_cons]
  exact ⟨by decide, by decide, hpid, by decide, by decide, Numeral.signed_isWord _, by simp⟩

theorem tokens_line (h : UserHeading) {payload : Text} (hpayload : '\t' ∉ payload.head?) :
    Line.tokens (h.line payload) = h.tokens ++ Line.tokens payload := by
  rw [h.line_eq, h.tokens_text h.provider_event_solid h.idWords_isWord (List.cons_ne_nil _ _)
    hpayload]
  rfl

theorem body_line (h : UserHeading) {payload ending : Text}
    (hlast : ∀ c ∈ payload.getLast?, Line.isLineEnd c = false)
    (hending : ∀ c ∈ ending, Line.isLineEnd c = true) :
    Line.body (h.line payload ++ ending) = h.line payload :=
  h.body_text _ _ hlast hending

end UserHeading

/-- What a switch says before its payload. -/
structure SwitchHeading extends Heading where
  tid : ThreadId
  tid_fits : -Numeral.signedRange ≤ tid ∧ tid < Numeral.signedRange

namespace SwitchHeading

def line (h : SwitchHeading) (payload : Text) : Text :=
  h.text Line.switchName ("tid = ".toList ++ Numeral.signed h.tid) ++ payload

def tokens (h : SwitchHeading) : List Text :=
  h.words Line.switchName ["tid".toList, ['='], Numeral.signed h.tid]

theorem tokens_line (h : SwitchHeading) {payload : Text} (hpayload : '\t' ∉ payload.head?) :
    Line.tokens (h.line payload) = h.tokens ++ Line.tokens payload := by
  rw [tokens, ← h.tokens_text (by decide) _ (List.cons_ne_nil _ _) hpayload, line]
  · simp [Text.joinWith_cons_cons]
  · simp only [List.forall_mem_cons]
    exact ⟨by decide, by decide, Numeral.signed_isWord _, by simp⟩

theorem body_line (h : SwitchHeading) {payload ending : Text}
    (hlast : ∀ c ∈ payload.getLast?, Line.isLineEnd c = false)
    (hending : ∀ c ∈ ending, Line.isLineEnd c = true) :
    Line.body (h.line payload ++ ending) = h.line payload :=
  h.body_text _ _ hlast hending

end SwitchHeading
end TraceReport
