import TraceReport.Conversion.Run
import TraceReport.Files.Tree

namespace TraceReport

/-- The text files about a finished conversion that kept its records. -/
inductive Dump
  | signals
  | blocks
  | switches
  | processes
  | threads
  | owners
  | groups
  deriving DecidableEq, Repr

namespace Dump

def all : List Dump := [.signals, .blocks, .switches, .processes, .threads, .owners, .groups]

def fileName : Dump → Text
  | .signals => "session-report.user.dat".toList
  | .blocks => "session-report.user.new.dat".toList
  | .switches => "session-report.kernel.dat".toList
  | .processes => "session-report.meta.pid".toList
  | .threads => "session-report.meta.tid".toList
  | .owners => "session-report.meta.tidpid".toList
  | .groups => "session-report.group.info".toList

def recordsText {α : Type} (describe : α → Text) (list : List α) : Text :=
  list.flatMap fun record => describe record ++ "\n\n".toList

def processesText (names : TrackNames) : Text :=
  names.processes.flatMap fun (pid, process) =>
    "pid : ".toList ++ Numeral.signed pid ++ ", procname : ".toList ++ process ++ ['\n']

def threadsText (names : TrackNames) : Text :=
  names.threads.flatMap fun (tid, process) =>
    "tid : ".toList ++ Numeral.signed tid ++ ", procname : ".toList ++ process ++ ['\n']

def ownersText (names : TrackNames) : Text :=
  names.owners.flatMap fun (tid, pid) =>
    "tid : ".toList ++ Numeral.signed tid ++ ", pid : ".toList ++ Numeral.signed pid ++ ['\n']

def trackText (track : Groups.Track) : Text :=
  "group : ".toList ++ track.name ++ ", pid : ".toList ++ Numeral.signed track.pid ++ ['\n']

def laneText (lane : Lane) : Text :=
  "event : tid(".toList ++ Numeral.signed lane.tid ++ ") name(".toList ++ lane.group ++
    ") process(".toList ++ lane.process ++ ") physical(".toList ++ lane.physical ++
    ") logical(".toList ++ lane.logical ++ ")\n".toList

def text (kept : Kept) (finished : Finished) : Dump → Text
  | .signals => recordsText Signal.describe kept.signals.reverse
  | .blocks => recordsText Block.describe kept.blocks.reverse
  | .switches => recordsText Switch.describe kept.switches.reverse
  | .processes => processesText finished.progress.names
  | .threads => threadsText finished.progress.names
  | .owners => ownersText finished.progress.names
  | .groups =>
    finished.groups.tracks.flatMap trackText ++ finished.groups.lanes.flatMap laneText

/-- Writes all dumps into a directory; one that cannot be written is left out. -/
def write (dir : Path) (kept : Kept) (finished : Finished) (tree : FileTree) : FileTree :=
  all.foldl (fun tree dump =>
    tree.writeNew (dir.join dump.fileName) (Utf8.encode (dump.text kept finished))) tree

end Dump
end TraceReport
