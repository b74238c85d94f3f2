import TraceReport.Proofs.Event
import TraceReport.Proofs.Text.Utf8
import TraceReport.Report

namespace TraceReport.Report

open Json (Value)

/-- A report in the making: what is written of it, and how many events that holds. -/
structure Writer where
  pieces : List Piece
  written : Nat

/-- A call hands over one event, or several at once. -/
inductive Call
  | one (e : Event)
  | all (events : List Event)

def Call.events : Call → List Event
  | .one e => [e]
  | .all events => events

namespace Writer

def new : Writer := ⟨[.header], 0⟩

/-- A separator goes before every event, with a comma before all but the first. -/
def writeEvent (w : Writer) (e : Event) : Writer where
  pieces := w.pieces ++ [if w.written = 0 then .lineBreak else .comma, .event e]
  written := w.written + 1

def writeAll (w : Writer) (events : List Event) : Writer := events.foldl writeEvent w

def write (w : Writer) : Call → Writer
  | .one e => w.writeEvent e
  | .all events => w.writeAll events

def run (calls : List Call) : Writer := calls.foldl write new

def finish (w : Writer) : List Piece := w.pieces ++ [.footer]

end Writer

theorem continued_nil (written : Nat) : continued written [] = [] := by
  cases written <;> rfl

theorem continued_cons (written : Nat) (e : Event) (more : List Event) :
    continued written (e :: more) =
      [if written = 0 then .lineBreak else .comma, .event e] ++ continued (written + 1) more := by
  cases written <;> rfl

namespace Writer

/-- However many events a call brings, the separators depend on the count so far alone. -/
theorem writeAll_eq (w : Writer) (events : List Event) :
    w.writeAll events = ⟨w.pieces ++ continued w.written events, w.written + events.length⟩ := by
  induction events generalizing w with
  | nil => rw [continued_nil, List.append_nil]; rfl
  | cons e more ih =>
    have hstep : w.writeAll (e :: more) = (w.writeEvent e).writeAll more := rfl
    rw [hstep, ih, continued_cons, ← List.append_assoc, List.length_cons,
      Nat.add_comm more.length 1, ← Nat.add_assoc]
    rfl

theorem write_eq (w : Writer) (call : Call) : w.write call = w.writeAll call.events := by
  cases call <;> rfl

theorem foldl_write (w : Writer) (calls : List Call) :
    calls.foldl write w = w.writeAll (calls.flatMap Call.events) := by
  induction calls generalizing w with
  | nil => rfl
  | cons call more ih =>
    rw [List.foldl_cons, ih, write_eq, List.flatMap_cons, writeAll, writeAll, writeAll,
      List.foldl_append]

/-- The calls are written as all their events at once. -/
theorem run_eq (calls : List Call) :
    run calls =
      ⟨unfinished (calls.flatMap Call.events), (calls.flatMap Call.events).length⟩ := by
  rw [run, foldl_write, writeAll_eq]
  simp [new, unfinished]

theorem finish_run (calls : List Call) :
    (run calls).finish = finished (calls.flatMap Call.events) := by
  rw [run_eq]
  rfl

end Writer

theorem bytesOf_eq (pieces : List Piece) : bytesOf pieces = Utf8.encode (textOf pieces) := by
  rw [bytesOf, textOf, Utf8.encode, List.flatMap_assoc]
  rfl

theorem textOf_append (pieces more : List Piece) :
    textOf (pieces ++ more) = textOf pieces ++ textOf more := List.flatMap_append

theorem textOf_listed_cons (e : Event) (more : List Event) :
    textOf (listed (e :: more)) = ',' :: '\n' :: (e.text ++ textOf (listed more)) := rfl

/-- The text of the events of a report, each on a line of its own. -/
theorem textOf_continued_cons (e : Event) (more : List Event) :
    textOf (continued 0 (e :: more)) = '\n' :: (e.text ++ textOf (listed more)) := rfl

theorem count_lineFeed_event (e : Event) : e.text.count '\n' = 0 :=
  List.count_eq_zero.mpr (Json.text_no_lineFeed e.toJson)

theorem count_lineFeed_listed (events : List Event) :
    (textOf (listed events)).count '\n' = events.length := by
  induction events with
  | nil => rfl
  | cons e more ih =>
    rw [textOf_listed_cons, List.count_cons_of_ne (by decide), List.count_cons_self,
      List.count_append, count_lineFeed_event, ih, List.length_cons, Nat.zero_add]

theorem count_lineFeed_continued (events : List Event) :
    (textOf (continued 0 events)).count '\n' = events.length := by
  cases events with
  | nil => rfl
  | cons e more =>
    rw [textOf_continued_cons, List.count_cons_self, List.count_append, count_lineFeed_event,
      count_lineFeed_listed, List.length_cons, Nat.zero_add]

theorem textOf_finished (events : List Event) :
    textOf (finished events) =
      Piece.header.text ++ (textOf (continued 0 events) ++ ['\n', ']', '\x7d', '\n']) := by
  have hheader : textOf [.header] = Piece.header.text := List.flatMap_singleton _ _
  have hfooter : textOf [.footer] = ['\n', ']', '\x7d', '\n'] := rfl
  have hpieces : finished events = [.header] ++ (continued 0 events ++ [.footer]) := rfl
  rw [hpieces, textOf_append, textOf_append, hheader, hfooter]

theorem count_lineFeed_finished (events : List Event) :
    (textOf (finished events)).count '\n' = events.length + 2 := by
  have hheader : Piece.header.text.count '\n' = 0 := by decide
  have hfooter : List.count '\n' ['\n', ']', '\x7d', '\n'] = 2 := by decide
  rw [textOf_finished, List.count_append, List.count_append, count_lineFeed_continued, hheader,
    hfooter, Nat.zero_add]

section

variable {fuel : Nat} {rest : Text}

/-- After the text of an event stands a separator or the end of the array. -/
theorem value?_event (e : Event) {c : Char} {after : Text} (hf : 2 * e.text.length ≤ fuel)
    (hc : c ∈ [',', ']', '\x7d', '\n']) :
    Value.value? fuel (e.text ++ c :: after) = some (e.toJson.value, c :: after) :=
  Json.value?_text e.toJson hf (Json.ends_cons hc after)

/-- The events of the array are read one after the other. The fuel shrinks with the text. -/
theorem items?_events (e : Event) (more : List Event)
    (hf : 2 * (e.text ++ textOf (listed more)).length + 1 ≤ fuel) :
    Value.items? fuel (e.text ++ (textOf (listed more) ++ '\n' :: ']' :: rest)) =
      some ((e :: more).map fun e => e.toJson.value, rest) := by
  induction more generalizing e fuel with
  | nil =>
    obtain ⟨n, rfl⟩ : ∃ n, fuel = n + 1 := ⟨fuel - 1, by omega⟩
    have hitem : Value.value? n (e.text ++ '\n' :: ']' :: rest) =
        some (e.toJson.value, '\n' :: ']' :: rest) := by
      refine value?_event e ?_ (by simp)
      rw [List.length_append] at hf
      omega
    have hafter : Json.skipSpace ('\n' :: ']' :: rest) = ']' :: rest := by
      rw [Json.skipSpace_lineFeed, Json.skipSpace_cons (by decide)]
    exact Json.items?_last hitem hafter
  | cons next more ih =>
    obtain ⟨n, rfl⟩ : ∃ n, fuel = n + 1 := ⟨fuel - 1, by omega⟩
    rw [textOf_listed_cons] at hf ⊢
    simp only [List.length_append, List.length_cons] at hf
    simp only [List.cons_append, List.append_assoc]
    have hitem : Value.value? n (e.text ++
        ',' :: '\n' :: (next.text ++ (textOf (listed more) ++ '\n' :: ']' :: rest))) = _ :=
      value?_event e (by omega) (by simp)
    have hmore : Value.items? n (next.text ++ (textOf (listed more) ++ '\n' :: ']' :: rest)) = _ :=
      ih next (by rw [List.length_append]; omega)
    rw [← Json.items?_lineFeed] at hmore
    exact Json.items?_more hitem (Json.skipSpace_cons (by decide) _) hmore

/-- The array of a report is read as its events, an empty one included. -/
theorem value?_events (events : List Event)
    (hf : 2 * (textOf (continued 0 events)).length + 1 ≤ fuel) :
    Value.value? fuel ('[' :: (textOf (continued 0 events) ++ '\n' :: ']' :: rest)) =
      some (.array (events.map fun e => e.toJson.value), rest) := by
  cases events with
  | nil =>
    refine Json.value?_emptyArray (by omega) ?_
    change Json.skipSpace ('\n' :: ']' :: rest) = _
    rw [Json.skipSpace_lineFeed, Json.skipSpace_cons (by decide)]
  | cons e more =>
    obtain ⟨n, rfl⟩ : ∃ n, fuel = n + 1 := ⟨fuel - 1, by omega⟩
    rw [textOf_continued_cons] at hf ⊢
    rw [List.length_cons] at hf
    have hitems : Value.items? n (e.text ++ (textOf (listed more) ++ '\n' :: ']' :: rest)) = _ :=
      items?_events e more (by omega)
    obtain ⟨c, t, ht, hc⟩ := Json.text_opens e.toJson
    have htext : e.text = c :: t := ht
    rw [htext, List.cons_append] at hitems
    refine Json.value?_array ?_ hc.bracket hitems
    rw [List.cons_append, Json.skipSpace_lineFeed, List.append_assoc, htext, List.cons_append,
      Json.skipSpace_cons hc.space]

end

/-- What a report tells of its events. -/
def document (events : List Event) : Value :=
  .object [("displayTimeUnit".toList, .string "ms".toList),
    ("traceEvents".toList, .array (events.map fun e => e.toJson.value))]

theorem header_text (t : Text) :
    Piece.header.text ++ t =
      '\x7b' :: (Json.stringText "displayTimeUnit".toList ++ ':' ::
        (Json.stringText "ms".toList ++ ',' ::
          (Json.stringText "traceEvents".toList ++ ':' :: '[' :: t))) := by
  have h : Piece.header.text = '\x7b' :: (Json.stringText "displayTimeUnit".toList ++ ':' ::
      (Json.stringText "ms".toList ++ ',' ::
        (Json.stringText "traceEvents".toList ++ [':', '[']))) := by decide
  rw [h]
  simp only [List.cons_append, List.append_assoc, List.nil_append]

theorem read?_finished (events : List Event) :
    Value.read? (textOf (finished events)) = some (document events) := by
  let body := textOf (continued 0 events) ++ ['\n', ']', '\x7d', '\n']
  have hlength : (Piece.header.text ++ body).length =
      Piece.header.text.length + (textOf (continued 0 events)).length + 4 := by
    rw [List.length_append, List.length_append]
    rfl
  have hheader : Piece.header.text.length = 39 := by decide
  obtain ⟨n, hn⟩ : ∃ n, 2 * (Piece.header.text ++ body).length = n + 3 :=
    ⟨2 * (Piece.header.text ++ body).length - 3, by omega⟩
  have hevents : Value.value? n ('[' :: body) = some (_, ['\x7d', '\n']) :=
    value?_events events (by omega)
  have hunit : Value.value? (n + 1) (Json.stringText "ms".toList ++ ',' ::
      (Json.stringText "traceEvents".toList ++ ':' :: '[' :: body)) = some (_, _) :=
    Json.value?_string _ (by omega)
  have hlist := Json.members?_last "traceEvents".toList hevents
    (Json.skipSpace_cons (by decide) ['\n'])
  have hmembers := Json.members?_more "displayTimeUnit".toList hunit
    (Json.skipSpace_cons (by decide) _) hlist
  have hvalue := Json.value?_object hmembers
  rw [Value.read?, textOf_finished, hn, header_text, hvalue]
  rfl

/-- Whatever calls bring the events, what is written is one document that tells them in order, one
on a line, each with what there is of it. -/
theorem document_of_calls (calls : List Call) :
    let w := Writer.run calls
    let events := calls.flatMap Call.events
    w.written = events.length ∧ w.finish = finished events ∧
      ∃ text, Utf8.decode? (bytesOf w.finish) = some text ∧
        (∃ items, Value.read? text =
            some (.object [("displayTimeUnit".toList, .string "ms".toList),
              ("traceEvents".toList, .array items)]) ∧
          items.length = w.written ∧ items = events.map (fun e => e.toJson.value) ∧
          ∀ i (h : i < events.length), ∃ members, items[i]? = some (.object members) ∧
            (members.map Prod.fst).Nodup ∧
            ∀ key : String, members.lookup key.toList = events[i].field? key) ∧
        text.count '\n' = w.written + 2 := by
  intro w events
  have hwritten : w.written = events.length := by rw [show w = _ from Writer.run_eq calls]
  have hfinish : w.finish = finished events := Writer.finish_run calls
  refine ⟨hwritten, hfinish, textOf (finished events), ?_,
    ⟨_, read?_finished events, ?_, rfl, ?_⟩, ?_⟩
  · rw [hfinish, bytesOf_eq, Utf8.decode?_encode]
  · rw [List.length_map, hwritten]
  · intro i h
    obtain ⟨members, hvalue, hnodup, hfield⟩ := events[i].toJson_value
    refine ⟨members, ?_, hnodup, hfield⟩
    rw [List.getElem?_map, List.getElem?_eq_getElem h, Option.map_some, hvalue]
  · rw [count_lineFeed_finished, hwritten]

end TraceReport.Report
