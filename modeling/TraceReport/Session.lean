import TraceReport.Dump
import TraceReport.Files.Checks

namespace TraceReport

/-- A conversion between files. -/
structure Session where
  input : Path
  output : Path
  dumpDirectory : Option Path
  options : Options
  deriving DecidableEq, Repr

def Settings.load (tree : FileTree) (path : Path) : Except SettingsFault Settings :=
  match tree.readText path with
  | .error cause => .error (.unreadable path cause)
  | .ok text => Settings.parse path text

namespace Session

/-- Where the dumps go: next to the report unless a directory is given. -/
def dumpTarget (session : Session) : Path :=
  match session.dumpDirectory <|> session.output.parent? with
  | some dir => if dir.isEmpty then Path.dot else dir
  | none => Path.dot

def addDumps (session : Session) (finished : Finished) (tree : FileTree) : FileTree :=
  match finished.progress.kept with
  | some kept => Dump.write session.dumpTarget kept finished tree
  | none => tree

/-- Converts between two open files. The log is read after the output has been emptied, and a log
that cannot be read still leaves a report that has begun. -/
def convertOpen (session : Session) (settings : Settings) (input output : Place)
    (tree : FileTree) : FileTree × Except ConversionFault Finished :=
  match Job.plan settings session.options with
  | .error fault => (tree, .error fault)
  | .ok job =>
    match tree.contentAt input with
    | .error cause => (tree.put output (.file (Report.bytesOf (Report.unfinished []))),
        .error (.file cause))
    | .ok log =>
      let outcome := job.convert (Log.texts log)
      (tree.put output (.file (Report.bytesOf outcome.pieces)), outcome.result)

/-- Opens the log, creates the report, converts, and writes the dumps. -/
def run (session : Session) (settings : Settings) (tree : FileTree) :
    FileTree × Except ConversionFault Tally :=
  match tree.openAt session.input with
  | .error cause => (tree, .error (.file cause))
  | .ok input =>
    match tree.create session.output with
    | .error cause => (tree, .error (.file cause))
    | .ok (output, tree) =>
      match session.convertOpen settings input output tree with
      | (tree, .error fault) => (tree, .error fault)
      | (tree, .ok finished) => (session.addDumps finished tree, .ok finished.tally)

end Session
end TraceReport
