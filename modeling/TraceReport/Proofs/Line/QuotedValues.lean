import TraceReport.Proofs.Line.Printing
import TraceReport.Proofs.Line.Spacing
import TraceReport.Proofs.Payload.Spacing

namespace TraceReport.Record

open Payload (Printed IsName braced)
open Text (Respaced SingleSpaced)

theorem braced_ends (entries : List Payload.Entry) :
    (braced entries).head? = some '\x7b' ∧ (braced entries).getLast? = some '\x7d' := by
  refine ⟨rfl, ?_⟩
  rw [braced, List.getLast?_append]
  rfl

/-- A value in quotes keeps its words through a line: of the last field of its key nothing changes
but the width and the kind of its blanks, and nothing at all where they are single spaces. -/
theorem quoted_value_read (clock : Clock) (h : UserHeading) {time : Micros}
    (htime : clock.micros? h.stamp = some time) {before after : List Printed} {key value : Text}
    (name : IsName key) (hquote : '"' ∉ value) (hslash : '\\' ∉ value)
    (hmany : before ≠ [] ∨ after ≠ []) (hlater : ∀ f ∈ after, f.key ≠ key) {ending : Text}
    (hending : ∀ c ∈ ending, Line.isLineEnd c = true) :
    let field := Printed.quoted name hquote hslash
    let payload := braced ((before ++ field :: after).map Printed.entry)
    ∃ s found, read clock .plain (Line.tokens (Line.body (h.line payload ++ ending))) =
        .ok (.user (.plain s)) ∧
      s.header.payload.find? key = some found ∧ Respaced value found ∧
      (SingleSpaced value → found = value) := by
  intro field payload
  obtain ⟨hhead, hlast⟩ := braced_ends ((before ++ field :: after).map Printed.entry)
  have hbody : Line.body (h.line payload ++ ending) = h.line payload :=
    h.body_line (by
      rw [hlast]
      decide) hending
  have htokens : Line.tokens (h.line payload) = h.tokens ++ Line.tokens payload :=
    h.tokens_line (by
      rw [hhead]
      decide)
  have hspaced : Respaced payload (Text.joinWith [' '] (Line.tokens payload)) :=
    Line.respaced_tokens (by
      rw [hhead]
      decide) (by
      rw [hlast]
      decide)
  have hquoted : field.value = '"' :: value ++ ['"'] := rfl
  obtain ⟨found, hfound, hvalue⟩ := Payload.find?_plain_respaced hquoted hlater hmany hspaced
  refine ⟨h.signal (Text.joinWith [' '] (Line.tokens payload)) time, found, ?_, ?_, hvalue,
    hvalue.eq_of_singleSpaced⟩
  · rw [hbody, htokens, read, h.read_signal, h.map_timed, Heading.timed, htime]
  · rw [h.signal_payload]
    exact hfound

theorem textName : IsName "text".toList := ⟨by decide, by decide, by decide⟩

/-- A field that stands after the text of a message. -/
def levelField : Printed where
  key := "level".toList
  value := ['2']
  name := ⟨by decide, by decide, by decide⟩
  value_ne_nil := by decide
  value_trimmed := by decide
  value_closed := by decide
  value_unbroken := by decide

/-- A message of a text and a level. -/
def messagePayload (value : Text) : Text :=
  braced [⟨"text".toList, ' ' :: '"' :: value ++ ['"']⟩, levelField.entry]

example : messagePayload "hi".toList = "\x7b text = \"hi\", level = 2 \x7d".toList := by decide

/-- A text with single spaces is kept, commas and braces and all. -/
theorem quoted_value_read_message :
    let value := " a, \x7bb= ".toList
    (Clock.micros? ⟨none⟩ messageHeading.stamp = some 10000000 ∧ '"' ∉ value ∧ '\\' ∉ value ∧
      (∀ f ∈ [levelField], f.key ≠ "text".toList) ∧ SingleSpaced value) ∧
    ∃ s, read ⟨none⟩ .plain
        (Line.tokens (Line.body (messageHeading.line (messagePayload value) ++ ['\n']))) =
          .ok (.user (.plain s)) ∧
      s.header.payload.find? "text".toList = some value := by
  intro value
  have htime : Clock.micros? ⟨none⟩ messageHeading.stamp = some 10000000 := by decide +kernel
  have hquote : '"' ∉ value := by decide
  have hslash : '\\' ∉ value := by decide
  have hlater : ∀ f ∈ [levelField], f.key ≠ "text".toList := by
    intro f hf
    obtain rfl := List.mem_singleton.mp hf
    decide
  have hsingle : SingleSpaced value := by decide
  have hmany : ([] : List Printed) ≠ [] ∨ [levelField] ≠ [] := .inr (List.cons_ne_nil levelField [])
  have hending : ∀ c ∈ ['\n'], Line.isLineEnd c = true := by decide
  obtain ⟨s, found, hread, hfound, -, hsame⟩ :=
    quoted_value_read ⟨none⟩ messageHeading htime textName hquote hslash hmany hlater hending
  rw [hsame hsingle] at hfound
  exact ⟨⟨htime, hquote, hslash, hlater, hsingle⟩, s, hread, hfound⟩

/-- A printed message holds its text. -/
def HoldsText (clock : Clock) (h : UserHeading) (value : Text) : Prop :=
  '"' ∉ value → '\\' ∉ value →
    ((read clock .plain (Line.tokens (Line.body (h.line (messagePayload value))))).toOption.bind
      fun record => record.header.payload.find? "text".toList) = some value

instance (clock : Clock) (h : UserHeading) (value : Text) : Decidable (HoldsText clock h value) :=
  inferInstanceAs (Decidable (_ → _ → _))

/-- Of two spaces one is kept, and a tab becomes a space. -/
theorem not_holdsText :
    ¬HoldsText ⟨none⟩ messageHeading "a  b".toList ∧
      ¬HoldsText ⟨none⟩ messageHeading "a\tb".toList :=
  ⟨by decide +kernel, by decide +kernel⟩

end TraceReport.Record
