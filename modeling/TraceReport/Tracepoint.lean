import TraceReport.Event

namespace TraceReport

/-- The events user records are known to carry. -/
inductive Tracepoint
  | soInfo
  | start
  | stop
  | touchCoordinate
  | message
  | keyValue
  | before
  | after
  | scopeEntry
  | scopeExit
  | functionEntry
  | functionExit
  | inputChangeEntry
  | inputChangeExit
  | log
  | blockEntry
  | blockExit
  | marker
  deriving DecidableEq, Repr

/-- What a record turns into on a view. -/
inductive Drawing
  | nothing
  | event (phase : Phase)
  /-- the lifetime of an object, and an instant -/
  | object
  deriving DecidableEq, Repr

namespace Tracepoint

def all : List Tracepoint :=
  [soInfo, start, stop, touchCoordinate, message, keyValue, before, after, scopeEntry, scopeExit,
    functionEntry, functionExit, inputChangeEntry, inputChangeExit, log, blockEntry, blockExit,
    marker]

def name : Tracepoint → String
  | soInfo => "soinfo"
  | start => "start"
  | stop => "end"
  | touchCoordinate => "touchcoordinate"
  | message => "message"
  | keyValue => "keyValue"
  | before => "before"
  | after => "after"
  | scopeEntry => "scope_entry"
  | scopeExit => "scope_exit"
  | functionEntry => "function_entry"
  | functionExit => "function_exit"
  | inputChangeEntry => "input_change_function_entry"
  | inputChangeExit => "input_change_function_exit"
  | log => "log"
  | blockEntry => "block_entry"
  | blockExit => "block_exit"
  | marker => "marker"

def dialect : Tracepoint → Dialect
  | log | blockEntry | blockExit | marker => .structured
  | _ => .plain

/-- The tracepoint of a name on a line of a dialect; the other dialect's names are unknown. -/
def find? (dialect : Dialect) (name : Text) : Option Tracepoint :=
  all.find? fun t => t.name.toList == name && t.dialect == dialect

def onUserView : Tracepoint → Drawing
  | soInfo | touchCoordinate | message | keyValue | log => .event .instant
  | before | scopeEntry | functionEntry | inputChangeEntry | blockEntry => .event .begin
  | after | scopeExit | functionExit | inputChangeExit | blockExit => .event .finish
  | start | stop => .nothing
  | marker => .object

/-- Groups show neither logs nor markers. -/
def onGroupView : Tracepoint → Drawing
  | log | marker => .nothing
  | t => t.onUserView

def unknownMessage (name : Text) : String := "Unknown event type: " ++ String.ofList name

end Tracepoint
end TraceReport
