import TraceReport.Conversion.Drawing
import TraceReport.Conversion.Tally
import TraceReport.Options

namespace TraceReport

/-- Why no report, or only part of one, was written. -/
inductive ConversionFault
  | noView
  | badPeriod (millis : Nat)
  | badLine (number : Nat) (fault : LineFault)
  /-- a file failed, or the output refused a piece that is no event -/
  | file (cause : FileFault)
  /-- the output refused part of an event -/
  | cutEvent
  deriving DecidableEq, Repr

def ConversionFault.message : ConversionFault → String
  | .noView => "No view enabled (user, group and cpu are all off)"
  | .badPeriod millis => s!"CPU usage period must be within 1..=1000 ms, got {millis}"
  | .badLine number fault => s!"Malformed trace line {number}: {fault.message}"
  | .file cause => cause.message
  | .cutEvent => FileFault.full.message

/-- The message of the fault below, when there is one. -/
def ConversionFault.cause? : ConversionFault → Option String
  | .badLine _ fault => some fault.message
  | _ => none

/-- What a conversion goes by. -/
structure Job where
  settings : Settings
  views : Views
  processes : Option (List Text)
  clock : Clock
  groups : Groups
  cores : Nat
  periodMicros : Nat
  keep : Bool
  deriving DecidableEq, Repr

/-- Views are resolved before the period is checked. -/
def Job.plan (settings : Settings) (options : Options) : Except ConversionFault Job :=
  let views := options.effectiveViews settings
  if views.isEmpty then .error .noView
  else if !Options.periodAllowed options.periodMillis then .error (.badPeriod options.periodMillis)
  else .ok {
    settings, views
    processes := options.processes
    clock := ⟨options.boot⟩
    groups := if views.group then .ofSettings settings else .none
    cores := options.cores
    periodMicros := 1000 * options.periodMillis
    keep := options.keep }

/-- The records kept for the dumps, newest first. -/
structure Kept where
  signals : List Signal
  blocks : List Block
  switches : List Switch
  deriving DecidableEq, Repr

namespace Kept

def none : Kept := ⟨[], [], []⟩

def addUser (kept : Kept) : UserRecord → Kept
  | .plain s => { kept with signals := s :: kept.signals }
  | .structured b => { kept with blocks := b :: kept.blocks }

def addSwitch (kept : Kept) (s : Switch) : Kept := { kept with switches := s :: kept.switches }

end Kept

/-- How far a conversion has come. -/
structure Progress where
  names : TrackNames
  load : Load
  seen : List Sighting
  kept : Option Kept
  tally : Tally
  deriving DecidableEq, Repr

/-- What a line did: the state after it, the events it drew, and why it was no record. -/
structure Step where
  progress : Progress
  drawn : List Drawn
  fault : Option LineFault

namespace Job

def start (job : Job) : Progress where
  names := .empty
  load := .new job.cores job.periodMicros
  seen := []
  kept := if job.keep then some .none else none
  tally := .zero

/-- Whether events of a process are drawn. -/
def selects (job : Job) (process : Text) : Bool :=
  match job.processes with
  | none => true
  | some names => names.contains process

def scheduleEvents (job : Job) (s : Switch) (phase : Phase) (task : Text) :
    Option ThreadId → List Event
  | some tid => if job.selects task then [s.event phase task tid] else []
  | none => []

/-- The outgoing task is handled before the incoming one is even read. -/
def stepSwitch (job : Job) (p : Progress) (s : Switch) : Step :=
  let p := { p with tally := { p.tally with switches := p.tally.switches + 1 } }
  if !job.views.cpu then ⟨p, [], none⟩
  else
    let h := s.header
    let names := p.names.note h.process h.pid h.tid
    let load := p.load.openWindow h.time
    let load := (s.outgoing?).elim load fun tid => load.leave tid h.time
    let ended := Drawn.of .schedule (job.scheduleEvents s .finish h.process s.outgoing?)
    match s.incoming with
    | .error fault => ⟨{ p with names, load }, ended, some fault⟩
    | .ok incoming =>
      let load := incoming.elim load fun tid => load.enter tid h.core h.time
      let begun := Drawn.of .schedule (job.scheduleEvents s .begin s.nextName incoming)
      let (load, window) := load.closeWindow h.time
      let usage := Drawn.of .usage (window.elim [] Window.events)
      let tally := { p.tally with samples := p.tally.samples + window.toList.length }
      ⟨{ p with names, load, tally, kept := p.kept.map (·.addSwitch s) },
        ended ++ begun ++ usage, none⟩

/-- The tracepoint of a record that is to be drawn. -/
def drawable? (job : Job) (record : UserRecord) : Option Tracepoint :=
  if job.selects record.header.process then
    Tracepoint.find? record.dialect record.header.event
  else none

/-- User events come before the group events of the same record. -/
def drawUser (job : Job) (record : UserRecord) : List Drawn :=
  match job.drawable? record with
  | none => []
  | some tracepoint =>
    Drawn.of .user (if job.views.user then record.userEvents tracepoint else []) ++
    Drawn.of .group
      (if job.views.group then record.groupEvents job.groups tracepoint else [])

/-- The sighting of a record that some group showed. -/
def sightings (job : Job) (record : UserRecord) : List Sighting :=
  match job.drawable? record with
  | none => []
  | some tracepoint =>
    if job.views.group && !(record.groupEvents job.groups tracepoint).isEmpty then
      [Groups.sighting record.header.process record.signal]
    else []

/-- An ignored record still names its tracks. -/
def stepUser (job : Job) (p : Progress) (record : UserRecord) : Step :=
  let h := record.header
  let names := p.names.note h.process h.pid h.tid
  let tally := p.tally.countUser record
  if job.settings.ignores h.process h.provider then
    ⟨{ p with names, tally := { tally with ignored := tally.ignored + 1 } }, [], none⟩
  else
    let unknown := (Tracepoint.find? record.dialect h.event).isNone
    let tally := if unknown then { tally with unknown := tally.unknown + 1 } else tally
    ⟨{ p with
        names, tally
        seen := (job.sightings record).foldl (fun seen s => seen.insert s) p.seen
        kept := p.kept.map (·.addUser record) },
      job.drawUser record, none⟩

def stepRecord (job : Job) (p : Progress) : Record → Step
  | .switch s => job.stepSwitch p s
  | .user record => job.stepUser p record

/-- Takes in one line. Blank and auxiliary lines only count. -/
def step (job : Job) (p : Progress) (raw : Text) : Step :=
  let line := Line.body raw
  let tally := { p.tally with lines := p.tally.lines + 1 }
  if Line.isBlank line then
    ⟨{ p with tally := { tally with blank := tally.blank + 1 } }, [], none⟩
  else if Line.describesBinary line then
    ⟨{ p with tally := { tally with auxiliary := tally.auxiliary + 1 } }, [], none⟩
  else
    let tokens := Line.tokens line
    let rerouted := Line.isRerouted line tokens
    let tally := if rerouted then { tally with rerouted := tally.rerouted + 1 } else tally
    match Record.read job.clock (Line.dialect line tokens) tokens with
    | .error fault => ⟨{ p with tally }, [], some fault⟩
    | .ok record => job.stepRecord { p with tally } record

/-- The names of user tracks. -/
def userNames (p : Progress) : List Event :=
  p.names.processes.map (fun (pid, process) => Event.processName pid process) ++
  p.names.threadLabels.map fun (pid, tid, label) => Event.threadName pid tid label

def coreNames (p : Progress) : List Event :=
  Event.processName corePid "[CUSTOM] CPU usages/core".toList ::
  ((List.range p.load.cores).map fun core =>
    Event.threadName corePid (coreLane core) (coreLabel core)) ++
  [Event.threadName corePid (coreLane p.load.cores) totalLabel]

def scheduleNames (p : Progress) : List Event :=
  Event.processName schedulePid "[CUSTOM] CPU usages/ps".toList ::
  p.names.threadLabels.map fun (_, tid, label) => Event.threadName schedulePid tid label

/-- All groups are named, but only the lanes that show something. -/
def groupNames (job : Job) (p : Progress) : List Event :=
  job.groups.tracks.map (fun track =>
    Event.processName track.pid ("[CUSTOM] ".toList ++ track.name)) ++
  (job.groups.sighted p.seen).map fun (pid, lane) => Event.threadName pid lane.tid lane.logical

/-- What is known only after the last line. -/
def closing (job : Job) (p : Progress) : List Drawn :=
  (if job.views.user then Drawn.of (.naming .user) (userNames p) else []) ++
  (if job.views.cpu then
    Drawn.of (.naming .cpu) (coreNames p) ++
    Drawn.of .reference p.load.referenceEvents ++
    Drawn.of (.naming .cpu) (scheduleNames p) else []) ++
  (if job.views.group then Drawn.of (.naming .group) (job.groupNames p) else [])

end Job
end TraceReport
