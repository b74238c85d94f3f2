import TraceReport.Proofs.Line.Layout
import TraceReport.Proofs.Record

namespace TraceReport

open Text (joinWith IsWord)

theorem Numeral.signed_char {n : Int} {c : Char} (h : c ∈ signed n) :
    c = '-' ∨ c.isDigit = true := by
  have hdigit : ∀ c ∈ decimal n.natAbs, c.isDigit = true := (Json.digits_decimal _).digit
  unfold signed at h
  split at h
  · exact (List.mem_cons.mp h).imp_right (hdigit c)
  · exact .inr (hdigit c h)

namespace Header

theorem without_of_not_mem {marks t : Text} (h : ∀ c ∈ marks, c ∉ t) : without marks t = t := by
  refine List.filter_eq_self.mpr fun c hc => ?_
  simp only [Bool.not_eq_true', List.contains_eq_mem, decide_eq_false_iff_not]
  exact fun hm => h c hm hc

theorem without_append (marks a b : Text) :
    without marks (a ++ b) = without marks a ++ without marks b := by
  simp only [without, List.filter_append]

theorem core?_decimal {core : Core} (h : core ≤ Numeral.maxWord32) :
    core? (Numeral.decimal core) = .ok core := by
  rw [core?, Numeral.natural?_decimal h]

/-- A printed id is read from its token, with or without the comma after it. -/
theorem integer?_without {n : Int} (h : -Numeral.signedRange ≤ n ∧ n < Numeral.signedRange)
    (marks : Text) (hmarks : without [',', ' '] marks = []) :
    Numeral.integer? (without [',', ' '] (Numeral.signed n ++ marks)) = some n := by
  have hkept : without [',', ' '] (Numeral.signed n) = Numeral.signed n := by
    refine without_of_not_mem fun c hc hm => ?_
    simp only [List.mem_cons, List.not_mem_nil, or_false] at hc
    rcases Numeral.signed_char hm with rfl | hdigit
    · exact absurd hc (by decide)
    · rcases hc with rfl | rfl
      · exact absurd hdigit (by decide)
      · exact absurd hdigit (by decide)
  rw [without_append, hmarks, hkept, List.append_nil, Numeral.integer?_signed h.1 h.2]

end Header

namespace Heading

/-- The header of a printed record. -/
def header (h : Heading) (provider event : Text) (pid : ProcessId) (tid : ThreadId)
    (payload : Payload) (time : Micros) : Header where
  stamp := h.stamp
  time := time
  host := h.host
  provider := provider
  event := event
  cpu := Numeral.decimal h.core
  core := h.core
  process := h.process
  pid := pid
  tid := tid
  payload := payload

/-- What becomes of a printed record depends on its stamp alone. -/
def timed (h : Heading) (clock : Clock) {α : Type} (record : Micros → α) : Except LineFault α :=
  match clock.micros? h.stamp with
  | some time => .ok (record time)
  | none => .error (.badTimestamp h.stamp)

theorem map_timed (h : Heading) (clock : Clock) {α β : Type} (record : Micros → α) (f : α → β) :
    (h.timed clock record).map f = h.timed clock fun time => f (record time) := by
  unfold timed
  cases clock.micros? h.stamp with
  | none => rfl
  | some time => rfl

theorem bind_timed (h : Heading) (clock : Clock) {α β : Type} (record : Micros → α) (f : α → β) :
    (h.timed clock record >>= fun found => .ok (f found)) =
      h.timed clock fun time => f (record time) := by
  unfold timed
  cases clock.micros? h.stamp with
  | none => rfl
  | some time => rfl

theorem takeWhile_host (h : Heading) : h.host.takeWhile (· != ':') = h.host :=
  List.takeWhile_eq_self_iff.mpr fun _ hc => bne_iff_ne.mpr fun he => h.host_noColon (he ▸ hc)

theorem without_process (h : Heading) :
    Header.without ['"', ','] ('"' :: h.process ++ "\",".toList) = h.process := by
  have hkept : Header.without ['"', ','] h.process = h.process := by
    refine Header.without_of_not_mem fun c hc => ?_
    simp only [List.mem_cons, List.not_mem_nil, or_false] at hc
    rcases hc with rfl | rfl
    · exact h.process_noQuote
    · exact h.process_noComma
  have hopened : Header.without ['"', ','] ('"' :: h.process) = h.process := hkept
  have hclosing : Header.without ['"', ','] "\",".toList = [] := rfl
  rw [Header.without_append, hopened, hclosing, List.append_nil]

theorem without_core (h : Heading) :
    Header.without [' '] (Numeral.decimal h.core) = Numeral.decimal h.core := by
  refine Header.without_of_not_mem fun c hc hm => ?_
  obtain rfl := List.mem_singleton.mp hc
  exact absurd ((Numeral.decimal_isWord h.core).2 ' ' hm) (by decide)

/-- The fixed fields of a printed record are read from their tokens. -/
theorem read_words (h : Heading) (clock : Clock) (event : Text) {ids : List Text}
    (rest : List Text) (enough : Header.headTokens ≤ (h.words event ids ++ rest).length)
    {pidToken tidToken : Text} {pid : ProcessId} {tid : ThreadId}
    (hpid : Numeral.integer? (Header.without [',', ' '] pidToken) = some pid)
    (htid : Numeral.integer? (Header.without [',', ' '] tidToken) = some tid) (payload : Payload) :
    Header.read clock (h.words event ids ++ rest) enough pidToken tidToken payload =
      h.timed clock (h.header ((Line.colonParts (event ++ [':']))[0]?.getD [])
        ((Line.colonParts (event ++ [':']))[1]?.getD []) pid tid payload) := by
  have hcpu := h.without_core
  have hhost := h.takeWhile_host
  have hprocess := h.without_process
  have hcore := Header.core?_decimal h.core_le
  have hpid' : Header.integer? "process id" (Header.without [',', ' '] pidToken) = .ok pid :=
    Header.integer?_eq_ok_iff.mpr hpid
  have htid' : Header.integer? "thread id" (Header.without [',', ' '] tidToken) = .ok tid :=
    Header.integer?_eq_ok_iff.mpr htid
  simp only [Header.read, words, List.cons_append, List.nil_append,
    List.getElem_cons_zero, List.getElem_cons_succ] at hprocess ⊢
  rw [hcpu, hprocess, hhost, hcore, hpid', htid', timed]
  cases clock.micros? h.stamp with
  | none => rfl
  | some time => rfl

end Heading

namespace UserHeading

variable (h : UserHeading) (clock : Clock)

def userHeader (payload : Payload) (time : Micros) : Header :=
  h.header h.provider h.event h.pid h.tid payload time

/-- The record that a line writes with plain pairs. -/
def signal (payload : Text) (time : Micros) : Signal where
  header := h.userHeader (Payload.plain payload).1 time
  signal := (Payload.plain payload).2.getD
    (if Signal.selfNamed.contains h.event then h.event else [])

/-- The record that a line writes with a JSON object. -/
def block (payload : Text) (time : Micros) : Block :=
  ⟨h.userHeader (Payload.structured payload) time⟩

theorem signal_payload (payload : Text) (time : Micros) :
    (h.signal payload time).header.payload = (Payload.plain payload).1 := rfl

theorem colonParts_event :
    Line.colonParts (h.provider ++ ':' :: h.event ++ [':']) = [h.provider, h.event] := by
  rw [List.append_assoc, List.cons_append,
    Line.colonParts_append h.provider_word h.provider_noColon,
    Line.colonParts_append h.event_word h.event_noColon]
  rfl

/-- A user record of any dialect is read by its heading, with the payload that is read after it. -/
theorem read_tokens (rest : List Text) (enough : Header.headTokens ≤ (h.tokens ++ rest).length)
    (hlen : 20 ≤ (h.tokens ++ rest).length) (payload : Payload) :
    Header.read clock (h.tokens ++ rest) enough (h.tokens ++ rest)[15] (h.tokens ++ rest)[18]
      payload = h.timed clock (h.userHeader payload) := by
  have hread := h.read_words clock (h.provider ++ ':' :: h.event) rest enough
    (Header.integer?_without h.pid_fits [','] rfl) (Header.integer?_without h.tid_fits [] rfl)
    payload
  rw [h.colonParts_event, List.append_nil] at hread
  exact hread

theorem drop_tokens (rest : List Text) : (h.tokens ++ rest).drop userMinimum = rest := rfl

theorem read_signal (rest : List Text) :
    Signal.read clock (h.tokens ++ rest) = h.timed clock (h.signal (joinWith [' '] rest)) := by
  have hlen : userMinimum ≤ (h.tokens ++ rest).length := by
    rw [List.length_append]
    exact Nat.le_add_right userMinimum rest.length
  simp only [Signal.read, dif_pos hlen, h.drop_tokens]
  rw [h.read_tokens clock rest _ hlen]
  exact h.bind_timed clock _ _

theorem read_block (rest : List Text) :
    Block.read clock (h.tokens ++ rest) = h.timed clock (h.block (joinWith [' '] rest)) := by
  have hlen : userMinimum ≤ (h.tokens ++ rest).length := by
    rw [List.length_append]
    exact Nat.le_add_right userMinimum rest.length
  simp only [Block.read, dif_pos hlen, h.drop_tokens]
  rw [h.read_tokens clock rest _ hlen]
  exact h.bind_timed clock _ _

end UserHeading

namespace SwitchHeading

variable (h : SwitchHeading) (clock : Clock)

/-- The switch that a line writes, named by its provider. -/
def switch (payload : Text) (time : Micros) : Switch :=
  ⟨h.header Line.switchName Line.switchName h.tid h.tid (Payload.pairs payload) time⟩

theorem drop_tokens (rest : List Text) : (h.tokens ++ rest).drop Switch.minimum = rest := rfl

/-- The one id of a switch is read twice, and its provider names its event. -/
theorem read_tokens (rest : List Text) (enough : Header.headTokens ≤ (h.tokens ++ rest).length)
    (hlen : 17 ≤ (h.tokens ++ rest).length) (payload : Payload) :
    Header.read clock (h.tokens ++ rest) enough (h.tokens ++ rest)[15] (h.tokens ++ rest)[15]
      payload = h.timed clock (h.header Line.switchName [] h.tid h.tid payload) := by
  have hid := Header.integer?_without h.tid_fits [] rfl
  rw [List.append_nil] at hid
  have hnames : Line.colonParts (Line.switchName ++ [':']) = [Line.switchName] := by decide
  have hread := h.read_words clock Line.switchName rest enough hid hid payload
  rw [hnames] at hread
  exact hread

theorem read_switch (rest : List Text) :
    Switch.read clock (h.tokens ++ rest) = h.timed clock (h.switch (joinWith [' '] rest)) := by
  have hlen : Switch.minimum ≤ (h.tokens ++ rest).length := by
    rw [List.length_append]
    exact Nat.le_add_right Switch.minimum rest.length
  simp only [Switch.read, dif_pos hlen, h.drop_tokens]
  rw [h.read_tokens clock rest _ hlen]
  unfold switch
  generalize Payload.pairs _ = payload
  exact h.bind_timed clock _ _

theorem switch_value (payload key : Text) (time : Micros) :
    (h.switch payload time).header.value key =
      ((Payload.pairs payload).find? key).getD Header.noData := by
  rw [Header.value, switch, Heading.header]

end SwitchHeading

namespace Record

/-- What is left of a payload of words between headings and line ends. -/
theorem tokens_printed {ws : List Text} (hws : ∀ w ∈ ws, IsWord w) :
    '\t' ∉ (joinWith [' '] ws).head? ∧
      (∀ c ∈ (joinWith [' '] ws).getLast?, Line.isLineEnd c = false) ∧
      Line.tokens (joinWith [' '] ws) = ws := by
  have hspace {c : Char} (hc : c ∈ joinWith [' '] ws) (hblank : Text.isBlank c = true) : c = ' ' :=
    Text.eq_space_of_mem_joinWith hws hc hblank
  refine ⟨fun htab => ?_, fun c hc => ?_, Line.tokens_joinWith hws⟩
  · exact absurd (hspace (List.mem_of_head? htab) (by decide)) (by decide)
  · refine Bool.eq_false_iff.mpr fun hend => ?_
    have hmem := List.mem_of_getLast? hc
    simp only [Line.isLineEnd, Bool.or_eq_true, beq_iff_eq] at hend
    rcases hend with rfl | rfl
    · exact absurd (hspace hmem (by decide)) (by decide)
    · exact absurd (hspace hmem (by decide)) (by decide)

/-- Reading undoes printing: a line that is written from a heading and a payload of words is read
as the record with the fields of the heading, at the time of its stamp, and with what the payload
says. -/
theorem read_printed (clock : Clock) {ws : List Text} (hws : ∀ w ∈ ws, IsWord w) {ending : Text}
    (hending : ∀ c ∈ ending, Line.isLineEnd c = true) :
    let payload := joinWith [' '] ws
    let printed (line : Text) : List Text := Line.tokens (Line.body (line ++ ending))
    (∀ h : UserHeading,
      read clock .plain (printed (h.line payload)) =
        h.timed clock (fun time => .user (.plain (h.signal payload time))) ∧
      read clock .structured (printed (h.line payload)) =
        h.timed clock (fun time => .user (.structured (h.block payload time)))) ∧
    ∀ h : SwitchHeading,
      read clock .kernel (printed (h.line payload)) =
        h.timed clock (fun time => .switch (h.switch payload time)) ∧
      ∀ time, (h.switch payload time).nextName =
          ((Payload.pairs payload).find? "next_comm".toList).getD Header.noData ∧
        (h.switch payload time).nextThread = Header.integer? "next_tid"
          (((Payload.pairs payload).find? "next_tid".toList).getD Header.noData) := by
  intro payload printed
  obtain ⟨hfirst, hlast, hread⟩ := tokens_printed hws
  have huser (h : UserHeading) : printed (h.line payload) = h.tokens ++ ws := by
    simp only [printed, h.body_line hlast hending, h.tokens_line hfirst, payload, hread]
  have hswitch (h : SwitchHeading) : printed (h.line payload) = h.tokens ++ ws := by
    simp only [printed, h.body_line hlast hending, h.tokens_line hfirst, payload, hread]
  refine ⟨fun h => ⟨?_, ?_⟩, fun h => ⟨?_, fun time => ⟨?_, ?_⟩⟩⟩
  · rw [huser, read, h.read_signal, h.map_timed]
  · rw [huser, read, h.read_block, h.map_timed]
  · rw [hswitch, read, h.read_switch, h.map_timed]
  · exact h.switch_value payload _ time
  · rw [Switch.nextThread, h.switch_value]

/-- A heading of the tracer's own. -/
def messageHeading : UserHeading where
  seconds := "10".toList
  fraction := "000000200".toList
  elapsed := "0.1".toList
  host := "webos".toList
  core := 1
  process := "AppMgr".toList
  provider := "pmtrace".toList
  event := "message".toList
  pid := 100
  tid := 101
  seconds_digits := ⟨by decide, by decide⟩
  fraction_digits := ⟨by decide, by decide⟩
  elapsed_solid := by decide
  host_word := by decide
  host_noColon := by decide
  core_le := by decide
  process_solid := by decide
  process_noQuote := by decide
  process_noComma := by decide
  provider_word := by decide
  provider_noColon := by decide
  event_word := by decide
  event_noColon := by decide
  pid_fits := by decide
  tid_fits := by decide

example : messageHeading.line "\x7b text = \"hi\" \x7d".toList =
    ("[10.000000200] (+0.1) webos pmtrace:message: \x7b cpu_id = 1 \x7d, " ++
      "\x7b procname = \"AppMgr\", vpid = 100, vtid = 101 \x7d, " ++
      "\x7b text = \"hi\" \x7d").toList := by
  decide +kernel

theorem read_printed_message :
    (∀ w ∈ ["\x7b".toList, "text".toList, ['='], "hi".toList, "\x7d".toList], IsWord w) ∧
      (∀ c ∈ ['\n'], Line.isLineEnd c = true) ∧
      let payload := "\x7b text = hi \x7d".toList
      read ⟨none⟩ .plain
          (Line.tokens (Line.body (messageHeading.line payload ++ ['\n']))) =
        .ok (.user (.plain (messageHeading.signal payload 10000000))) := by
  have hws : ∀ w ∈ ["\x7b".toList, "text".toList, ['='], "hi".toList, "\x7d".toList], IsWord w := by
    decide
  have hending : ∀ c ∈ ['\n'], Line.isLineEnd c = true := by decide
  refine ⟨hws, hending, ?_⟩
  have hpayload : "\x7b text = hi \x7d".toList =
      joinWith [' '] ["\x7b".toList, "text".toList, ['='], "hi".toList, "\x7d".toList] := by decide
  have htime : Clock.micros? ⟨none⟩ messageHeading.stamp = some 10000000 := by decide +kernel
  have hread := ((read_printed ⟨none⟩ hws hending).1 messageHeading).1
  rw [← hpayload, Heading.timed, htime] at hread
  exact hread

end Record
end TraceReport
