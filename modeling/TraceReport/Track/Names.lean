import TraceReport.Record

namespace TraceReport

/-- The lane of an idle task: one per core, below every real thread id. -/
def idleThread? (process : Text) : Option ThreadId :=
  match "swapper".toList.isPrefixOf? process with
  | none => none
  | some ('/' :: core) => some (-1 - (Numeral.integer? core).getD 0)
  | some _ => some (-1)

/-- The names tracks go by; the last record about an id decides. -/
structure TrackNames where
  processes : Table ProcessId Text
  threads : Table ThreadId Text
  owners : Table ThreadId ProcessId
  deriving DecidableEq, Repr

namespace TrackNames

def empty : TrackNames := ⟨[], [], []⟩

/-- An idle task only names its own lane. -/
def note (names : TrackNames) (process : Text) (pid : ProcessId) (tid : ThreadId) :
    TrackNames :=
  match idleThread? process with
  | some idle => { names with threads := names.threads.insert idle process }
  | none => {
      processes := names.processes.insert pid process
      threads := names.threads.insert tid process
      owners := names.owners.insert tid pid }

def label (process : Text) (tid : ThreadId) : Text :=
  process ++ '(' :: Numeral.signed tid ++ [')']

/-- The threads whose process is known, in ascending order. -/
def threadLabels (names : TrackNames) : List (ProcessId × ThreadId × Text) :=
  names.threads.filterMap fun (tid, process) =>
    (names.owners.find? tid).map fun pid => (pid, tid, label process tid)

end TrackNames
end TraceReport
