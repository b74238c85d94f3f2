import TraceReport.Files.Tree

namespace TraceReport

/-- What a file is wanted for. -/
inductive FileRole
  | settings
  | log
  deriving DecidableEq, Repr

def FileRole.label : FileRole → String
  | .settings => "Config file"
  | .log => "Trace log"

/-- Why the paths of a run cannot be used. -/
inductive PathFault
  | absent (role : FileRole) (path : Path)
  | notAFile (role : FileRole) (path : Path)
  | outputIsDirectory (path : Path)
  | noOutputDirectory (dir : Path)
  | noDumpDirectory (dir : Path)
  deriving DecidableEq, Repr

def PathFault.message : PathFault → String
  | .absent role path =>
    s!"{role.label} not found: {String.ofList path}\n\n" ++
      "Make sure the path is correct and the file exists."
  | .notAFile role path =>
    s!"Not a file: {String.ofList path}\n\n{role.label} must be a regular file."
  | .outputIsDirectory path =>
    s!"Output path is a directory: {String.ofList path}\n\n-o must name the JSON file to write."
  | .noOutputDirectory dir =>
    s!"Output directory not found: {String.ofList dir}\n\n" ++
      "Create it first or choose another -o path."
  | .noDumpDirectory dir =>
    s!"Dump directory not found: {String.ofList dir}\n\nCreate it first or drop --dump-dir."

namespace FileTree

def requireFile (tree : FileTree) (role : FileRole) (path : Path) : Except PathFault Unit :=
  if !tree.exists? path then .error (.absent role path)
  else if !tree.isFile path then .error (.notAFile role path)
  else .ok ()

/-- The directory of a report must be there already. -/
def requireOutput (tree : FileTree) (path : Path) : Except PathFault Unit :=
  if tree.isDirectory path then .error (.outputIsDirectory path)
  else match path.parent? with
    | some dir =>
      if !dir.isEmpty && !tree.isDirectory dir then .error (.noOutputDirectory dir) else .ok ()
    | none => .ok ()

/-- The paths of a run, each looked at on its own. -/
def requirePaths (tree : FileTree) (settings log output : Path) : Except PathFault Unit := do
  tree.requireFile .settings settings
  tree.requireFile .log log
  tree.requireOutput output

def requireDumpDirectory (tree : FileTree) (dir : Path) : Except PathFault Unit :=
  if tree.isDirectory dir then .ok () else .error (.noDumpDirectory dir)

end FileTree
end TraceReport
