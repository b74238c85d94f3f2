import TraceReport.Files.Fault
import TraceReport.Files.Path
import TraceReport.Table
import TraceReport.Text.Utf8

namespace TraceReport

/-- The names that lead from the root to an entry. -/
abbrev Place := List Text

inductive Entry
  | directory
  | file (content : Bytes)
  deriving DecidableEq, Repr

/-- The files there are, and the directory from which relative paths start. The root is always
there. -/
structure FileTree where
  here : Place
  entries : Table Place Entry
  deriving DecidableEq, Repr

namespace FileTree

def entry? (tree : FileTree) : Place → Option Entry
  | [] => some .directory
  | place => tree.entries.find? place

def put (tree : FileTree) (place : Place) (entry : Entry) : FileTree :=
  { tree with entries := tree.entries.insert place entry }

def greatestName : Nat := 255

def greatestPath : Nat := 4095

/-- One step down or up, into a directory. -/
def enter (tree : FileTree) (place : Place) (name : Text) : Except FileFault Place :=
  if name = Path.dot then .ok place
  else if name = Path.dotDot then .ok place.dropLast
  else if greatestName < Utf8.size name then .error .nameTooLong
  else match tree.entry? (place ++ [name]) with
    | some .directory => .ok (place ++ [name])
    | some (.file _) => .error .notADirectory
    | none => .error .notFound

/-- A path's directory, and its last name unless it ends in the directory itself. -/
structure Target where
  directory : Place
  name : Option Text
  deriving DecidableEq, Repr

/-- The place of a target, unless its last name is too long for any entry. -/
def Target.place (t : Target) : Except FileFault Place :=
  if t.name.any fun name => greatestName < Utf8.size name then .error .nameTooLong
  else .ok (t.directory ++ t.name.toList)

/-- Follows a path down to its last name, which need not be there. -/
def locate (tree : FileTree) (path : Path) : Except FileFault Target := do
  if path.isEmpty then .error .notFound
  else if path.any (·.toNat == 0) then .error .nameHasNul
  else if greatestPath < Utf8.size path then .error .nameTooLong
  else
    let origin := if path.isAbsolute then [] else tree.here
    match path.names.getLast? with
    | none => .ok ⟨origin, none⟩
    | some last =>
      let directory ← path.names.dropLast.foldlM tree.enter origin
      if last = Path.dot || last = Path.dotDot then
        let directory ← tree.enter directory last
        .ok ⟨directory, none⟩
      else .ok ⟨directory, some last⟩

/-- The entry a path names. -/
def lookup (tree : FileTree) (path : Path) : Except FileFault (Place × Entry) := do
  let target ← tree.locate path
  let place ← target.place
  match tree.entry? place with
  | none => .error .notFound
  | some .directory => .ok (place, .directory)
  | some (.file content) =>
    if path.endsInSlash then .error .notADirectory else .ok (place, .file content)

def exists? (tree : FileTree) (path : Path) : Bool := (tree.lookup path).toOption.isSome

def isFile (tree : FileTree) (path : Path) : Bool :=
  match tree.lookup path with
  | .ok (_, .file _) => true
  | _ => false

def isDirectory (tree : FileTree) (path : Path) : Bool :=
  match tree.lookup path with
  | .ok (_, .directory) => true
  | _ => false

/-- The bytes at a place, when something there has been opened. -/
def contentAt (tree : FileTree) (place : Place) : Except FileFault Bytes :=
  match tree.entry? place with
  | some (.file content) => .ok content
  | some .directory => .error .isADirectory
  | none => .error .notFound

/-- Opens a file or a directory for reading. -/
def openAt (tree : FileTree) (path : Path) : Except FileFault Place :=
  (tree.lookup path).map Prod.fst

def readText (tree : FileTree) (path : Path) : Except FileFault Text := do
  let place ← tree.openAt path
  let bytes ← tree.contentAt place
  match Utf8.decode? bytes with
  | some t => .ok t
  | none => .error .notUtf8

/-- Creates an empty file, or empties the one that is there. A path that can only be a
directory's is refused before its last name is looked at. -/
def create (tree : FileTree) (path : Path) : Except FileFault (Place × FileTree) := do
  let target ← tree.locate path
  if target.name.isNone || path.endsInSlash then .error .isADirectory
  else
    let place ← target.place
    match tree.entry? place with
    | some .directory => .error .isADirectory
    | _ => .ok (place, tree.put place (.file []))

/-- A new file with its content; a file that cannot be created changes nothing. -/
def writeNew (tree : FileTree) (path : Path) (content : Bytes) : FileTree :=
  match tree.create path with
  | .ok (place, tree) => tree.put place (.file content)
  | .error _ => tree

end FileTree
end TraceReport
