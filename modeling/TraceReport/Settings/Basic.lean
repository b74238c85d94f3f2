import TraceReport.Text.Basic

namespace TraceReport

/-- Which user records a rule ignores: those of a process, of a provider, or of both at once. -/
structure IgnoreRule where
  process : Option Text
  provider : Option Text
  deriving DecidableEq, Repr

/-- A rule without conditions ignores nothing. -/
def IgnoreRule.covers (rule : IgnoreRule) (process provider : Text) : Bool :=
  match rule.process, rule.provider with
  | some p, some q => p == process && q == provider
  | some p, none => p == process
  | none, some q => q == provider
  | none, none => false

/-- A signal of a process, and what its lane is called. -/
structure LaneSettings where
  process : Text
  physical : Text
  logical : Text
  deriving DecidableEq, Repr

structure GroupSettings where
  name : Text
  enabled : Bool
  lanes : List LaneSettings
  deriving DecidableEq, Repr

structure GroupViewSettings where
  enabled : Bool
  groups : List GroupSettings
  deriving DecidableEq, Repr

structure Settings where
  ignoreRules : List IgnoreRule
  userView : Bool
  groupView : GroupViewSettings
  cpuView : Bool
  deriving DecidableEq, Repr

namespace Settings

def ignores (settings : Settings) (process provider : Text) : Bool :=
  settings.ignoreRules.any fun rule => rule.covers process provider

/-- Whether the group of a name is enabled; none for a name no group has. -/
def groupEnabled? (settings : Settings) (name : Text) : Option Bool :=
  (settings.groupView.groups.find? fun group => group.name == name).map (·.enabled)

def enabledGroups (settings : Settings) : List GroupSettings :=
  settings.groupView.groups.filter (·.enabled)

end Settings

/-- A set of views. -/
structure Views where
  user : Bool
  group : Bool
  cpu : Bool
  deriving DecidableEq, Repr

inductive View
  | user
  | group
  | cpu
  deriving DecidableEq, Repr

namespace Views

def none : Views := ⟨false, false, false⟩

def isEmpty (views : Views) : Bool := !(views.user || views.group || views.cpu)

def add (views : Views) : View → Views
  | .user => { views with user := true }
  | .group => { views with group := true }
  | .cpu => { views with cpu := true }

def ofList (list : List View) : Views := list.foldl add none

def ofSettings (settings : Settings) : Views :=
  ⟨settings.userView, settings.groupView.enabled, settings.cpuView⟩

end Views
end TraceReport
