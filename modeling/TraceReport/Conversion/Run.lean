import TraceReport.Conversion.Basic
import TraceReport.Report

namespace TraceReport

/-- A conversion on its way through a log; it stops at the first line that is no record. -/
structure Run where
  progress : Progress
  /-- the events so far, newest first -/
  drawn : List Drawn
  fault : Option ConversionFault

/-- A complete conversion: its last state, with all events counted. -/
structure Finished where
  progress : Progress
  groups : Groups
  deriving DecidableEq, Repr

def Finished.tally (f : Finished) : Tally := f.progress.tally

/-- The events of a log, and how its conversion ended. -/
structure Outcome where
  drawn : List Drawn
  result : Except ConversionFault Finished

/-- The pieces of the report; one that failed has no footer. -/
def Outcome.pieces (o : Outcome) : List Report.Piece :=
  match o.result with
  | .ok _ => Report.finished (Drawn.events o.drawn)
  | .error _ => Report.unfinished (Drawn.events o.drawn)

namespace Job

def feed (job : Job) (run : Run) (raw : Text) : Run :=
  match run.fault with
  | some _ => run
  | none =>
    let s := job.step run.progress raw
    ⟨s.progress, s.drawn.reverse ++ run.drawn, s.fault.map (.badLine s.progress.tally.lines)⟩

def run (job : Job) (log : List Text) : Run := log.foldl job.feed ⟨job.start, [], none⟩

def finish (job : Job) (p : Progress) (events : Nat) : Finished :=
  ⟨{ p with tally := { p.tally with events } }, job.groups⟩

def convert (job : Job) (log : List Text) : Outcome :=
  let run := job.run log
  match run.fault with
  | some fault => ⟨run.drawn.reverse, .error fault⟩
  | none =>
    let drawn := run.drawn.reverse ++ job.closing run.progress
    ⟨drawn, .ok (job.finish run.progress drawn.length)⟩

end Job

/-- The lines of a log, each with its line feed. -/
def Log.lines (input : Bytes) : List Bytes :=
  input.foldr (fun b lines =>
    if b = 10 then [b] :: lines
    else match lines with
      | [] => [[b]]
      | line :: rest => (b :: line) :: rest) []

/-- Bytes that are no text are replaced, line by line. -/
def Log.texts (input : Bytes) : List Text := (Log.lines input).map Utf8.decodeLossy

/-- The outcome when the output refused a piece. -/
def refusal (piece : Report.Piece) : ConversionFault :=
  if piece.isEvent then .cutEvent else .file .full

/-- Writes the pieces of an outcome; an output without `room` takes them all. -/
def Outcome.write (o : Outcome) : (room : Option Nat) → Bytes × Except ConversionFault Finished
  | none => (Report.bytesOf o.pieces, o.result)
  | some room =>
    match Report.deliver room o.pieces with
    | (kept, some piece) => (kept, .error (refusal piece))
    | (kept, none) => (kept, o.result)

/-- Converts a log; faults of the options come before anything is written. -/
def convert (settings : Settings) (options : Options) (room : Option Nat) (input : Bytes) :
    Bytes × Except ConversionFault Finished :=
  match Job.plan settings options with
  | .error fault => ([], .error fault)
  | .ok job => (job.convert (Log.texts input)).write room

end TraceReport
