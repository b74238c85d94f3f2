import TraceReport.Record
import TraceReport.Settings.Basic

namespace TraceReport

/-- The track of an enabled group. -/
structure Groups.Track where
  name : Text
  pid : ProcessId
  deriving DecidableEq, Repr

/-- A lane on a group's track: it shows one signal of one process. -/
structure Lane where
  group : Text
  process : Text
  physical : Text
  logical : Text
  tid : ThreadId
  deriving DecidableEq, Repr

structure Groups where
  tracks : List Groups.Track
  lanes : List Lane
  deriving DecidableEq, Repr

/-- A process and its signal, without spaces. -/
abbrev Sighting := Text × Text

namespace Groups

def none : Groups := ⟨[], []⟩

/-- Group tracks count down from here, below those of the other views. -/
def firstPid : ProcessId := -3

def lanesOf (group : GroupSettings) : List (Text × LaneSettings) :=
  group.lanes.map fun lane => (group.name, lane)

/-- Tracks are numbered in the order of the settings, lanes throughout all enabled groups. -/
def ofSettings (settings : Settings) : Groups where
  tracks := settings.enabledGroups.zipIdx.map fun (group, i) => ⟨group.name, firstPid - i⟩
  lanes := (settings.enabledGroups.flatMap lanesOf).zipIdx.map fun ((group, lane), i) =>
    ⟨group, lane.process, lane.physical, lane.logical, i⟩

def withoutSpaces (signal : Text) : Text := signal.filter (· != ' ')

def sighting (process signal : Text) : Sighting := (process, withoutSpaces signal)

def shows (lane : Lane) (seen : Sighting) : Bool :=
  lane.process == seen.1 && lane.physical == seen.2

/-- For every group in order its first lane that shows the signal. -/
def showing (groups : Groups) (process signal : Text) : List (Groups.Track × Lane) :=
  groups.tracks.filterMap fun track =>
    (groups.lanes.find? fun lane =>
      lane.group == track.name && shows lane (sighting process signal)).map fun lane =>
        (track, lane)

def pid? (groups : Groups) (name : Text) : Option ProcessId :=
  (groups.tracks.find? fun track => track.name == name).map (·.pid)

/-- The lanes whose signal was sighted, each with the track of its group. -/
def sighted (groups : Groups) (seen : List Sighting) : List (ProcessId × Lane) :=
  groups.lanes.filterMap fun lane =>
    if seen.contains (lane.process, lane.physical) then
      (groups.pid? lane.group).map fun pid => (pid, lane)
    else Option.none

end Groups
end TraceReport
