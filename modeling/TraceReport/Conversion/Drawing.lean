import TraceReport.Settings.Reader
import TraceReport.Track.Groups
import TraceReport.Track.Load
import TraceReport.Track.Names
import TraceReport.Tracepoint

namespace TraceReport

/-- What an event of a report belongs to. -/
inductive Origin
  /-- a user record on its own thread -/
  | user
  /-- a user record on a lane of a group -/
  | group
  /-- a task that enters or leaves a core -/
  | schedule
  /-- the counters of a closed window -/
  | usage
  /-- the counters that fix the scale -/
  | reference
  /-- the name of a track, by the view it is for -/
  | naming (view : View)
  deriving DecidableEq, Repr

structure Drawn where
  origin : Origin
  event : Event

namespace Drawn

def of (origin : Origin) (events : List Event) : List Drawn :=
  events.map fun event => ⟨origin, event⟩

def events (drawn : List Drawn) : List Event := drawn.map (·.event)

end Drawn

/-- The track of the core counters. -/
def corePid : ProcessId := -1

/-- The track of the scheduled tasks. -/
def schedulePid : ProcessId := -2

namespace Switch

def event (s : Switch) (phase : Phase) (task : Text) (tid : ThreadId) : Event where
  category := "cpu".toList
  pid := schedulePid
  tid := some tid
  time := some s.header.time
  phase := phase
  name := task
  arguments := some [("cpu_id".toList, .string s.header.cpu)]

/-- The task that leaves the core, unless the core was idle. -/
def outgoing? (s : Switch) : Option ThreadId :=
  match idleThread? s.header.process with
  | some _ => none
  | none => some s.header.tid

/-- The task that enters the core, unless the core goes idle; only then its thread id counts. -/
def incoming (s : Switch) : Except LineFault (Option ThreadId) :=
  match idleThread? s.nextName with
  | some _ => .ok none
  | none => s.nextThread.map some

end Switch

namespace Signal

/-- Header fields that are not empty, and over them the payload. -/
def arguments (s : Signal) : Table Text Json :=
  let h := s.header
  let fields := [
    ("hostname".toList, h.host), ("provider".toList, h.provider),
    ("process name".toList, h.process), ("pid".toList, Numeral.signed h.pid),
    ("tid".toList, Numeral.signed h.tid), ("cpu_id".toList, h.cpu), ("signal".toList, s.signal)]
  Event.textArguments (fields.filter (fun field => !field.2.isEmpty) ++ h.payload)

def event (s : Signal) (phase : Phase) : Event where
  category := "all".toList
  pid := s.header.pid
  tid := some s.header.tid
  time := some s.header.time
  phase := phase
  name := s.signal
  arguments := some s.arguments

end Signal

namespace Block

def event (b : Block) (phase : Phase) (name : Text) : Event where
  category := b.category
  pid := b.header.pid
  tid := some b.header.tid
  time := some b.header.time
  phase := phase
  name := name

/-- An object that is created, shows its whole payload and is deleted at once, and an instant that
the whole report shows. -/
def objectEvents (b : Block) : List Event :=
  let snapshot := Json.object (Event.textArguments b.header.payload)
  let step (phase : Phase) : Event := { b.event phase b.name with id := some b.header.tid }
  [step .created,
    { step .snapshot with arguments := some [("snapshot".toList, snapshot)] },
    step .deleted,
    { b.event .instant b.name with scope := some "g".toList }]

end Block

namespace UserRecord

def arguments : UserRecord → Table Text Json
  | .plain s => s.arguments
  | .structured b => Event.textArguments b.arguments

/-- The events on the record's own thread; a log goes by its category. -/
def userEvents (record : UserRecord) (tracepoint : Tracepoint) : List Event :=
  match record, tracepoint.onUserView with
  | .plain s, .event phase => [s.event phase]
  | .structured b, .event phase =>
    let name := if tracepoint = .log then b.category else b.name
    [{ b.event phase name with arguments := some record.arguments }]
  | .structured b, .object => b.objectEvents
  | _, _ => []

def groupEvent (record : UserRecord) (phase : Phase) (track : Groups.Track) (lane : Lane) :
    Event where
  category := "group".toList
  pid := track.pid
  tid := some lane.tid
  time := some record.header.time
  phase := phase
  name := record.signal
  arguments := some record.arguments

/-- One event on every group that shows the record. -/
def groupEvents (record : UserRecord) (groups : Groups) (tracepoint : Tracepoint) : List Event :=
  match tracepoint.onGroupView with
  | .event phase =>
    (groups.showing record.header.process record.signal).map fun (track, lane) =>
      record.groupEvent phase track lane
  | _ => []

end UserRecord

/-- The lane of a core's counter; the lane after the last core's is that of the total. -/
def coreLane (core : Nat) : ThreadId := core

def coreLabel (core : Nat) : Text := "Core #".toList ++ Numeral.decimal core

def totalLabel : Text := "Total".toList

/-- A counter per core and one for their mean. -/
def counters (time : Micros) (shares : List Binary64) (total : Binary64) : List Event :=
  shares.zipIdx.map (fun (share, core) =>
    Event.counter (coreLabel core) corePid (coreLane core) time share) ++
  [Event.counter totalLabel corePid (coreLane shares.length) time total]

def Window.events (w : Window) : List Event := counters w.ending w.shares w.total

/-- Counters at the full share, which set the scale of the display. -/
def Load.referenceEvents (load : Load) : List Event :=
  let full := Binary64.ofNat Window.fullShare
  counters load.ending (List.replicate load.cores full) full

end TraceReport
