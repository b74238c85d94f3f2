import TraceReport.Proofs.Conversion.Views
import TraceReport.Proofs.Report

namespace TraceReport

namespace Report

section

variable (room : Nat) (pieces : List Piece)

theorem deliver_cons (piece : Piece) :
    deliver room (piece :: pieces) =
      if piece.bytes.length ≤ room then
        (piece.bytes ++ (deliver (room - piece.bytes.length) pieces).1,
          (deliver (room - piece.bytes.length) pieces).2)
      else (piece.bytes.take room, some piece) := rfl

theorem bytesOf_cons (piece : Piece) : bytesOf (piece :: pieces) = piece.bytes ++ bytesOf pieces :=
  List.flatMap_cons

theorem bytesOf_append (more : List Piece) :
    bytesOf (pieces ++ more) = bytesOf pieces ++ bytesOf more := List.flatMap_append

/-- What is kept of a report is what comes first in it. -/
theorem deliver_kept : (deliver room pieces).1 = (bytesOf pieces).take room := by
  induction pieces generalizing room with
  | nil => exact List.take_nil.symm
  | cons piece rest ih =>
    rw [deliver_cons, bytesOf_cons, List.take_append]
    split_ifs with hfits
    · rw [ih, List.take_of_length_le hfits]
    · have hnone : room - piece.bytes.length = 0 := by omega
      rw [hnone, List.take_zero, List.append_nil]

theorem deliver_refused_none : (deliver room pieces).2 = none ↔ (bytesOf pieces).length ≤ room := by
  induction pieces generalizing room with
  | nil => simp [deliver, bytesOf]
  | cons piece rest ih =>
    rw [deliver_cons, bytesOf_cons, List.length_append]
    split_ifs with hfits
    · rw [ih]
      omega
    · simp only [false_iff]
      omega

/-- The refused piece is the one that the first byte without room lies in. -/
theorem deliver_refused_some {piece : Piece} (h : (deliver room pieces).2 = some piece) :
    ∃ before after, pieces = before ++ piece :: after ∧
      (bytesOf before).length ≤ room ∧ room < (bytesOf before).length + piece.bytes.length := by
  induction pieces generalizing room with
  | nil => simp [deliver] at h
  | cons first rest ih =>
    rw [deliver_cons] at h
    split_ifs at h with hfits
    · obtain ⟨before, after, hrest, hroom, hcut⟩ := ih _ h
      refine ⟨first :: before, after, ?_, ?_, ?_⟩
      · rw [hrest, List.cons_append]
      · rw [bytesOf_cons, List.length_append]
        omega
      · rw [bytesOf_cons, List.length_append]
        omega
    · obtain rfl : first = piece := Option.some.inj h
      exact ⟨[], rest, rfl, Nat.zero_le _, by simpa [bytesOf] using hfits⟩

end

theorem continued_append (written : Nat) (events more : List Event) :
    continued written (events ++ more) =
      continued written events ++ continued (written + events.length) more := by
  induction events generalizing written with
  | nil => rw [continued_nil]; rfl
  | cons e rest ih =>
    rw [List.cons_append, continued_cons, continued_cons, ih, List.append_assoc, List.length_cons,
      Nat.add_right_comm, Nat.add_assoc]

end Report

/-- A conversion that was cut short: the bytes written till then, and what stopped it. -/
structure Stop where
  taken : Bytes
  fault : ConversionFault

/-- An output that is written to. Without `room` there is no end to it. -/
structure Output where
  taken : Bytes
  room : Option Nat

namespace Output

/-- Writes a piece; of one that is too long goes in what there is room for. -/
def put (output : Output) (piece : Report.Piece) : Except Stop Output :=
  match output.room with
  | none => .ok { output with taken := output.taken ++ piece.bytes }
  | some room =>
    if piece.bytes.length ≤ room then
      .ok ⟨output.taken ++ piece.bytes, some (room - piece.bytes.length)⟩
    else .error ⟨output.taken ++ piece.bytes.take room, refusal piece⟩

def putAll (output : Output) (pieces : List Report.Piece) : Except Stop Output :=
  pieces.foldlM put output

/-- Goes on with a value, unless there is a fault to stop for. -/
def proceed {α : Type} (output : Output) (fault : Option ConversionFault) (value : α) :
    Except Stop α :=
  match fault with
  | some fault => .error ⟨output.taken, fault⟩
  | none => .ok value

section

variable (output : Output) (pieces more : List Report.Piece)

theorem putAll_append :
    output.putAll (pieces ++ more) = output.putAll pieces >>= fun next => next.putAll more :=
  List.foldlM_append

theorem putAll_cons (piece : Report.Piece) :
    output.putAll (piece :: pieces) = output.put piece >>= fun next => next.putAll pieces :=
  List.foldlM_cons

theorem putAll_unbounded (taken : Bytes) :
    (Output.mk taken none).putAll pieces = .ok ⟨taken ++ Report.bytesOf pieces, none⟩ := by
  induction pieces generalizing taken with
  | nil =>
    rw [Report.bytesOf, List.flatMap_nil, List.append_nil]
    rfl
  | cons piece rest ih =>
    have hput : (Output.mk taken none).putAll (piece :: rest) =
        (Output.mk (taken ++ piece.bytes) none).putAll rest := rfl
    rw [hput, ih, Report.bytesOf_cons, List.append_assoc]

/-- Written one after the other, pieces are delivered up to the one that is refused. -/
theorem putAll_bounded (taken : Bytes) (room : Nat) :
    (Output.mk taken (some room)).putAll pieces =
      match Report.deliver room pieces with
      | (kept, some piece) => .error ⟨taken ++ kept, refusal piece⟩
      | (kept, none) => .ok ⟨taken ++ kept, some (room - kept.length)⟩ := by
  induction pieces generalizing taken room with
  | nil =>
    simp only [Report.deliver, List.append_nil]
    rfl
  | cons piece rest ih =>
    rw [putAll_cons, Report.deliver_cons, put]
    dsimp only
    split_ifs with hfits
    · have hnext : (Except.ok ⟨taken ++ piece.bytes, some (room - piece.bytes.length)⟩ >>=
          fun next : Output => next.putAll rest) = (Output.mk (taken ++ piece.bytes)
            (some (room - piece.bytes.length))).putAll rest := rfl
      rw [hnext, ih]
      cases Report.deliver (room - piece.bytes.length) rest with
      | mk kept refused =>
        cases refused with
        | some other => simp only [List.append_assoc]
        | none => simp only [List.append_assoc, List.length_append, Nat.sub_sub]
    · rfl

end

end Output

/-- A report that is written while the log is read: its output and the events it has in full. -/
structure Live where
  output : Output
  written : Nat

namespace Live

def writeEvent (live : Live) (e : Event) : Except Stop Live := do
  let separated ← live.output.put (if live.written = 0 then .lineBreak else .comma)
  let output ← separated.put (.event e)
  return ⟨output, live.written + 1⟩

def writeAll (live : Live) (events : List Event) : Except Stop Live :=
  events.foldlM writeEvent live

/-- Events are written with the separators of a report that has so many events already. -/
theorem writeAll_eq (live : Live) (events : List Event) :
    live.writeAll events =
      live.output.putAll (Report.continued live.written events) >>= fun output =>
        pure ⟨output, live.written + events.length⟩ := by
  induction events generalizing live with
  | nil => rw [Report.continued_nil]; rfl
  | cons e rest ih =>
    have hwrite : live.writeAll (e :: rest) =
        live.writeEvent e >>= fun next => next.writeAll rest := rfl
    rw [hwrite, Report.continued_cons, Output.putAll_append, Output.putAll_cons]
    simp only [ih, writeEvent, Output.putAll, List.foldlM_cons, List.foldlM_nil, bind_assoc,
      pure_bind, bind_pure, List.length_cons, Nat.add_assoc, Nat.add_comm 1]

end Live

namespace Job

/-- Takes in one line and writes what it draws at once. A line that is no record stops the
conversion, but for what it has drawn by then. -/
def streamLine (job : Job) (state : Progress × Live) (raw : Text) :
    Except Stop (Progress × Live) := do
  let s := job.step state.1 raw
  let live ← state.2.writeAll (Drawn.events s.drawn)
  live.output.proceed (s.fault.map (.badLine s.progress.tally.lines)) (s.progress, live)

/-- Converts a log line by line into an output. Whatever stops it, nothing is written any more. -/
def stream (job : Job) (room : Option Nat) (log : List Text) : Except Stop (Bytes × Finished) := do
  let opened ← (Output.mk [] room).put .header
  let (p, live) ← log.foldlM job.streamLine (job.start, ⟨opened, 0⟩)
  let live ← live.writeAll (Drawn.events (job.closing p))
  let closed ← live.output.put .footer
  return (closed.taken, job.finish p live.written)

section

variable (job : Job)

theorem streamLine_eq (p : Progress) (output : Output) (written : Nat) (raw : Text) :
    let s := job.step p raw
    job.streamLine (p, ⟨output, written⟩) raw =
      output.putAll (Report.continued written (Drawn.events s.drawn)) >>= fun output =>
        output.proceed (s.fault.map (.badLine s.progress.tally.lines))
          (s.progress, ⟨output, written + s.drawn.length⟩) := by
  intro s
  have hlength : (Drawn.events s.drawn).length = s.drawn.length := List.length_map _
  rw [streamLine, Live.writeAll_eq, bind_assoc, hlength]
  rfl

/-- The lines of a log write what the run over them draws, until the run or the output stops. -/
theorem foldlM_streamLine (opened : Output) (log : List Text) :
    log.foldlM job.streamLine (job.start, ⟨opened, 0⟩) =
      opened.putAll (Report.continued 0 (Drawn.events (job.run log).drawn.reverse)) >>=
        fun output => output.proceed (job.run log).fault
          ((job.run log).progress, ⟨output, (job.run log).drawn.length⟩) := by
  induction log using List.reverseRecOn with
  | nil => rfl
  | append_singleton before raw ih =>
    rw [List.foldlM_append, ih, bind_assoc]
    cases hfault : (job.run before).fault with
    | some fault =>
      have hfeed : job.run (before ++ [raw]) = job.run before := by
        rw [run_append, feed, hfault]
      rw [hfeed, hfault]
      rfl
    | none =>
      have hfeed := run_append_of_passed hfault raw
      have hevents : Drawn.events (job.run (before ++ [raw])).drawn.reverse =
          Drawn.events (job.run before).drawn.reverse ++
            Drawn.events (job.step (job.run before).progress raw).drawn := by
        rw [hfeed, List.reverse_append, List.reverse_reverse, Drawn.events, List.map_append]
        rfl
      have hlength : (Drawn.events (job.run before).drawn.reverse).length =
          (job.run before).drawn.length := by
        rw [Drawn.events, List.length_map, List.length_reverse]
      rw [hevents, Report.continued_append, Output.putAll_append, bind_assoc, hlength, Nat.zero_add]
      congr 1
      funext output
      let state := ((job.run before).progress, Live.mk output (job.run before).drawn.length)
      have hline : (output.proceed none state >>= fun state => [raw].foldlM job.streamLine state) =
          job.streamLine state raw := bind_pure (job.streamLine state raw)
      rw [hline, streamLine_eq, hfeed]
      simp only [List.length_append, List.length_reverse, Nat.add_comm]

/-- A conversion that writes as it reads puts out the pieces of its report, in order. -/
theorem stream_eq (room : Option Nat) (log : List Text) :
    job.stream room log = (Output.mk [] room).putAll (job.convert log).pieces >>= fun output =>
      match (job.convert log).result with
      | .error fault => .error ⟨output.taken, fault⟩
      | .ok finished => .ok (output.taken, finished) := by
  rw [stream]
  cases hfault : (job.run log).fault with
  | some fault =>
    have hconvert : job.convert log = ⟨(job.run log).drawn.reverse, .error fault⟩ := by
      simp only [convert, hfault]
    have hpieces : (job.convert log).pieces =
        .header :: Report.continued 0 (Drawn.events (job.run log).drawn.reverse) := by
      rw [hconvert]
      rfl
    rw [hpieces, hconvert, Output.putAll_cons, bind_assoc]
    congr 1
    funext opened
    rw [foldlM_streamLine, hfault, bind_assoc]
    rfl
  | none =>
    let drawn := (job.run log).drawn.reverse ++ job.closing (job.run log).progress
    have hconvert : job.convert log =
        ⟨drawn, .ok (job.finish (job.run log).progress drawn.length)⟩ := by
      simp only [convert, hfault]
      rfl
    have hevents : Drawn.events drawn = Drawn.events (job.run log).drawn.reverse ++
        Drawn.events (job.closing (job.run log).progress) := List.map_append
    have hpieces : (job.convert log).pieces =
        .header :: (Report.continued 0 (Drawn.events drawn) ++ [.footer]) := by
      rw [hconvert]
      rfl
    rw [hpieces, hconvert, hevents, Report.continued_append, Output.putAll_cons, bind_assoc]
    congr 1
    funext opened
    rw [foldlM_streamLine, hfault, List.append_assoc, Output.putAll_append, bind_assoc, bind_assoc]
    congr 1
    funext output
    have hproceed : output.proceed none
        ((job.run log).progress, Live.mk output (job.run log).drawn.length) =
          .ok ((job.run log).progress, ⟨output, (job.run log).drawn.length⟩) := rfl
    have hwritten : (Drawn.events (job.run log).drawn.reverse).length =
        (job.run log).drawn.length := by rw [Drawn.events, List.length_map, List.length_reverse]
    have hcount : (job.run log).drawn.length +
        (Drawn.events (job.closing (job.run log).progress)).length = drawn.length := by
      rw [List.length_append, List.length_reverse, Drawn.events, List.length_map]
    rw [hproceed, hwritten, Nat.zero_add, Output.putAll_append, bind_assoc]
    change (Live.mk output _).writeAll _ >>= _ = _
    rw [Live.writeAll_eq, bind_assoc, ← hcount]
    congr 1
    funext filled
    rw [Output.putAll_cons, bind_assoc]
    rfl

end

end Job

/-- A conversion that writes its report while it reads the log. -/
def streamed (settings : Settings) (options : Options) (room : Option Nat) (input : Bytes) :
    Bytes × Except ConversionFault Finished :=
  match Job.plan settings options with
  | .error fault => ([], .error fault)
  | .ok job =>
    match job.stream room (Log.texts input) with
    | .error stop => (stop.taken, .error stop.fault)
    | .ok (taken, finished) => (taken, .ok finished)

theorem streamed_eq (settings : Settings) (options : Options) (room : Option Nat) (input : Bytes) :
    streamed settings options room input = convert settings options room input := by
  rw [streamed, convert]
  cases Job.plan settings options with
  | error fault => rfl
  | ok job =>
    dsimp only
    rw [Job.stream_eq]
    generalize job.convert (Log.texts input) = outcome
    cases room with
    | none =>
      rw [Output.putAll_unbounded, Outcome.write]
      cases outcome.result with
      | error fault => rfl
      | ok finished => rfl
    | some room =>
      rw [Output.putAll_bounded, Outcome.write]
      cases Report.deliver room outcome.pieces with
      | mk kept refused =>
        cases refused with
        | some piece => rfl
        | none =>
          cases outcome.result with
          | error fault => rfl
          | ok finished => rfl

/-- What is left of an outcome by an output without room for all of it. -/
theorem Outcome.write_bounded (o : Outcome) (room : Nat) :
    let whole := Report.bytesOf o.pieces
    (o.write (some room)).1 = whole.take room ∧
    (whole.length ≤ room → (o.write (some room)).2 = o.result) ∧
    (room < whole.length → ∃ before piece after, o.pieces = before ++ piece :: after ∧
      (Report.bytesOf before).length ≤ room ∧
      room < (Report.bytesOf before).length + piece.bytes.length ∧
      (o.write (some room)).2 = .error (refusal piece)) := by
  intro whole
  have hkept := Report.deliver_kept room o.pieces
  have hfits := Report.deliver_refused_none room o.pieces
  have hrefused := @Report.deliver_refused_some room o.pieces
  rw [write]
  cases hdeliver : Report.deliver room o.pieces with
  | mk kept refused =>
    rw [hdeliver] at hkept hfits hrefused
    cases refused with
    | none =>
      have hroom : whole.length ≤ room := hfits.mp rfl
      exact ⟨hkept, fun _ => rfl, fun h => absurd hroom (Nat.not_le.mpr h)⟩
    | some piece =>
      have hshort : ¬whole.length ≤ room := fun h => Option.some_ne_none _ (hfits.mpr h)
      obtain ⟨before, after, hsplit, hroom, hlies⟩ := hrefused rfl
      exact ⟨hkept, fun h => absurd h hshort, fun _ => ⟨before, piece, after, hsplit, hroom, hlies,
        rfl⟩⟩

/-- An output that takes so many bytes and refuses the rest keeps what comes first in the report. If
that is all of it the conversion ends as it does otherwise. If not, it fails for an event or for the
output, by the piece that the first byte without room lies in. It makes no difference that the
report is written while the log is read. -/
theorem refused_output_keeps_prefix (settings : Settings) (options : Options) (input : Bytes)
    (room : Nat) :
    let whole := convert settings options none input
    let cut := convert settings options (some room) input
    (streamed settings options none input = whole ∧
      streamed settings options (some room) input = cut) ∧
    cut.1 = whole.1.take room ∧
    (whole.1.length ≤ room → cut.2 = whole.2) ∧
    (room < whole.1.length → ∃ job before piece after,
      Job.plan settings options = .ok job ∧
      (job.convert (Log.texts input)).pieces = before ++ piece :: after ∧
      whole.1 = Report.bytesOf before ++ (piece.bytes ++ Report.bytesOf after) ∧
      (Report.bytesOf before).length ≤ room ∧
      room < (Report.bytesOf before).length + piece.bytes.length ∧
      cut.2 = .error (if piece.isEvent then .cutEvent else .file .full)) := by
  intro whole cut
  refine ⟨⟨streamed_eq _ _ _ _, streamed_eq _ _ _ _⟩, ?_⟩
  cases hplan : Job.plan settings options with
  | error fault =>
    have hends (room : Option Nat) : convert settings options room input = ([], .error fault) := by
      rw [convert, hplan]
    have hcut : cut = ([], .error fault) := hends _
    have hwhole : whole = ([], .error fault) := hends _
    rw [hcut, hwhole]
    exact ⟨List.take_nil.symm, fun _ => rfl, fun h => absurd h (Nat.not_lt_zero _)⟩
  | ok job =>
    have hends (room : Option Nat) :
        convert settings options room input = (job.convert (Log.texts input)).write room := by
      rw [convert, hplan]
    have hcut : cut = (job.convert (Log.texts input)).write (some room) := hends _
    have hwhole : whole = (job.convert (Log.texts input)).write none := hends _
    obtain ⟨hkept, hfits, hrefused⟩ := (job.convert (Log.texts input)).write_bounded room
    rw [hcut, hwhole]
    refine ⟨hkept, hfits, fun hlong => ?_⟩
    obtain ⟨before, piece, after, hsplit, hroom, hlies, hfault⟩ := hrefused hlong
    refine ⟨job, before, piece, after, rfl, hsplit, ?_, hroom, hlies, hfault⟩
    rw [Outcome.write, hsplit, Report.bytesOf_append, Report.bytesOf_cons]

/-- The report of a message. The header ends with byte 38, and the first event starts at byte 40. -/
theorem refused_output_keeps_prefix_message :
    let input := Utf8.encode (Job.userLine "App")
    let whole := convert Job.allViews Options.new none input
    let cut (room : Nat) := convert Job.allViews Options.new (some room) input
    40 < whole.1.length ∧ whole.2.isOk = true ∧
    ((cut 39).1 = whole.1.take 39 ∧ (cut 39).2 = .error (.file .full)) ∧
    ((cut 40).1 = whole.1.take 40 ∧ (cut 40).2 = .error .cutEvent) ∧
    (cut whole.1.length).2 = whole.2 := by
  intro input whole cut
  have hwhole : 40 < whole.1.length ∧ whole.2.isOk = true := by decide +kernel
  have hfaults : (cut 39).2 = .error (.file .full) ∧ (cut 40).2 = .error .cutEvent := by
    decide +kernel
  have hkeeps (room : Nat) := refused_output_keeps_prefix Job.allViews Options.new input room
  exact ⟨hwhole.1, hwhole.2, ⟨(hkeeps 39).2.1, hfaults.1⟩, ⟨(hkeeps 40).2.1, hfaults.2⟩,
    (hkeeps whole.1.length).2.2.1 (Nat.le_refl _)⟩

end TraceReport
