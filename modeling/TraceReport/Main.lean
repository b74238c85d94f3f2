import TraceReport.CommandLine.Program

namespace TraceReport.Main

/-- The paths a run may look at or write. -/
def touched (words : List Text) : List Path :=
  match Arguments.read words with
  | .error _ => []
  | .ok arguments =>
    let session := Program.session arguments none 1
    [arguments.settings.getD Arguments.defaultSettings, session.input, session.output,
      session.dumpTarget, Program.coresFile, Program.statisticsFile] ++
    Dump.all.map fun dump => session.dumpTarget.join dump.fileName

def absolute (place : Place) : String := "/" ++ "/".intercalate (place.map String.ofList)

/-- Only a directory has an entry for itself. -/
def entryAt (place : Place) : IO (Option Entry) := do
  try
    discard (IO.FS.realPath (absolute place ++ "/."))
    return some .directory
  catch _ =>
    try
      let bytes ← IO.FS.readBinFile (absolute place)
      return some (.file bytes.toList)
    catch _ => return none

/-- Adds an entry and the directories on the way to it. -/
def note (tree : FileTree) (origin : Place) (names : List Text) : IO FileTree := do
  let mut tree := tree
  let mut place := origin
  for name in names do
    place := if name = Path.dot then place
      else if name = Path.dotDot then place.dropLast
      else place ++ [name]
    if let some entry ← entryAt place then tree := tree.put place entry
  return tree

/-- What is on disk at the paths of a run. -/
def snapshot (paths : List Path) : IO FileTree := do
  let here := Path.names (toString (← IO.currentDir)).toList
  let mut tree ← note ⟨here, []⟩ [] here
  for path in paths do
    tree ← note tree (if path.isAbsolute then [] else here) path.names
  return tree

/-- Writes the files that a run made or changed. -/
def commit (before after : FileTree) : IO Unit := do
  for (place, entry) in after.entries do
    if before.entry? place != some entry then
      if let .file content := entry then
        IO.FS.writeBinFile (absolute place) ⟨content.toArray⟩

end TraceReport.Main

open TraceReport in
def main (args : List String) : IO UInt32 := do
  let words := args.map String.toList
  let before ← Main.snapshot (Main.touched words)
  let (after, reply) := Program.answer words before
  Main.commit before after
  IO.print reply.standardOutput
  IO.eprint reply.errorOutput
  return reply.exitCode.toUInt32
