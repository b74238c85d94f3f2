import TraceReport.Json.Writer
import TraceReport.Record

namespace TraceReport

inductive Phase
  | begin
  | finish
  | instant
  | counter
  | created
  | snapshot
  | deleted
  | naming
  deriving DecidableEq, Repr

def Phase.letter : Phase → Char
  | .begin => 'B'
  | .finish => 'E'
  | .instant => 'I'
  | .counter => 'C'
  | .created => 'N'
  | .snapshot => 'O'
  | .deleted => 'D'
  | .naming => 'M'

/-- One element of a report. Parts that are none are left out of it. -/
structure Event where
  category : Text
  pid : ProcessId
  tid : Option ThreadId
  time : Option Micros
  phase : Phase
  name : Text
  id : Option Int := none
  scope : Option Text := none
  arguments : Option (Table Text Json) := none

namespace Event

def counter (name : Text) (pid : ProcessId) (tid : ThreadId) (time : Micros) (value : Binary64) :
    Event where
  category := "usage".toList
  pid := pid
  tid := some tid
  time := some time
  phase := .counter
  name := name
  arguments := some [("value".toList, .real value)]

def nameRecord (kind : String) (pid : ProcessId) (tid : Option ThreadId) (label : Text) :
    Event where
  category := "metadata".toList
  pid := pid
  tid := tid
  time := none
  phase := .naming
  name := kind.toList
  arguments := some [("name".toList, .string label)]

def processName (pid : ProcessId) (label : Text) : Event :=
  nameRecord "process_name" pid none label

def threadName (pid : ProcessId) (tid : ThreadId) (label : Text) : Event :=
  nameRecord "thread_name" pid (some tid) label

/-- The arguments of string pairs, the last one of a key counting. -/
def textArguments (pairs : List (Text × Text)) : Table Text Json :=
  Table.ofPairs (pairs.map fun (key, value) => (key, .string value))

def member {α : Type} (key : String) (encode : α → Json) (part : Option α) : List (Text × Json) :=
  (part.map fun value => (key.toList, encode value)).toList

/-- The element as an object, its times as decimal text. -/
def toJson (e : Event) : Json := .object (
  [("cat".toList, .string e.category), ("pid".toList, .int e.pid)] ++
  member "tid" .int e.tid ++
  member "ts" (fun time => .string (Numeral.decimal time)) e.time ++
  [("ph".toList, .string [e.phase.letter]), ("name".toList, .string e.name)] ++
  member "id" .int e.id ++
  member "s" .string e.scope ++
  member "args" .object e.arguments)

def text (e : Event) : Text := e.toJson.text

end Event
end TraceReport
