import TraceReport.Files.Fault
import TraceReport.Json.Reader
import TraceReport.Settings.Basic
import TraceReport.Settings.Shape

namespace TraceReport

/-- Why settings could not be had. -/
inductive SettingsFault
  | unreadable (path : Text) (cause : FileFault)
  | notJson (path : Text)
  | wrongShape (path : Text) (mismatch : Mismatch)
  | namelessGroup
  | repeatedGroup (name : Text)

def SettingsFault.message : SettingsFault → String
  | .unreadable path cause =>
    s!"Failed to read config file {String.ofList path}: {cause.message}"
  | .notJson path => s!"Invalid config file {String.ofList path}: not JSON"
  | .wrongShape path mismatch =>
    s!"Invalid config file {String.ofList path}: {mismatch.message}"
  | .namelessGroup => "Invalid config: catapultGroupView.groups[].name must not be empty"
  | .repeatedGroup name =>
    s!"Invalid config: duplicate group name in catapultGroupView.groups: {String.ofList name}"

/-- The message of the fault below, when there is one. -/
def SettingsFault.cause? : SettingsFault → Option String
  | .unreadable _ cause => some cause.message
  | .notJson _ => some "not JSON"
  | .wrongShape _ mismatch => some mismatch.message
  | _ => none

namespace Settings

open Shape (field required)

def ignoreRule : Shape.Fields IgnoreRule IgnoreRule where
  name := "IgnoreRule"
  fields := [
    field "process" (Shape.optional Shape.text) fun value rule => { rule with process := value },
    field "provider" (Shape.optional Shape.text) fun value rule => { rule with provider := value }]
  blank := ⟨none, none⟩
  whole := .ok

def toggle : Shape.Fields (Option Bool) Bool where
  name := "ViewToggle"
  fields := [field "enable" Shape.bool fun value _ => some value]
  blank := none
  whole := required "enable"

structure LaneParts where
  process : Option Text
  physical : Option Text
  logical : Option Text

def lane : Shape.Fields LaneParts LaneSettings where
  name := "GroupEventConfig"
  fields := [
    field "process" Shape.text fun value parts => { parts with process := some value },
    field "physical" Shape.text fun value parts => { parts with physical := some value },
    field "logical" Shape.text fun value parts => { parts with logical := some value }]
  blank := ⟨none, none, none⟩
  whole parts := do
    return {
      process := ← required "process" parts.process
      physical := ← required "physical" parts.physical
      logical := ← required "logical" parts.logical }

structure GroupParts where
  name : Option Text
  enabled : Option Bool
  lanes : Option (List LaneSettings)

def group : Shape.Fields GroupParts GroupSettings where
  name := "GroupConfig"
  fields := [
    field "name" Shape.text fun value parts => { parts with name := some value },
    field "enable" Shape.bool fun value parts => { parts with enabled := some value },
    field "catapultEvents" (Shape.list lane.read) fun value parts =>
      { parts with lanes := some value }]
  blank := ⟨none, none, none⟩
  whole parts := do
    return {
      name := ← required "name" parts.name
      enabled := ← required "enable" parts.enabled
      lanes := ← required "catapultEvents" parts.lanes }

structure GroupViewParts where
  enabled : Option Bool
  groups : Option (List GroupSettings)

def groupViewShape : Shape.Fields GroupViewParts GroupViewSettings where
  name := "GroupViewConfig"
  fields := [
    field "enable" Shape.bool fun value parts => { parts with enabled := some value },
    field "groups" (Shape.list group.read) fun value parts => { parts with groups := some value }]
  blank := ⟨none, none⟩
  whole parts := do
    return {
      enabled := ← required "enable" parts.enabled
      groups := ← required "groups" parts.groups }

structure Parts where
  ignoreRules : Option (List IgnoreRule)
  userView : Option Bool
  groupView : Option GroupViewSettings
  cpuView : Option Bool

def shape : Shape.Fields Parts Settings where
  name := "Configuration"
  fields := [
    field "catapultIgnoreEvents" (Shape.list ignoreRule.read) fun value parts =>
      { parts with ignoreRules := some value },
    field "catapultUserView" toggle.read fun value parts => { parts with userView := some value },
    field "catapultGroupView" groupViewShape.read fun value parts =>
      { parts with groupView := some value },
    field "catapultCPUView" toggle.read fun value parts => { parts with cpuView := some value }]
  blank := ⟨none, none, none, none⟩
  whole parts := do
    return {
      ignoreRules := ← required "catapultIgnoreEvents" parts.ignoreRules
      userView := ← required "catapultUserView" parts.userView
      groupView := ← required "catapultGroupView" parts.groupView
      cpuView := ← required "catapultCPUView" parts.cpuView }

/-- The first group, in order, whose name is empty or was there before. -/
def nameFault? (seen : List Text) : List Text → Option SettingsFault
  | [] => none
  | name :: rest =>
    if name.isEmpty then some .namelessGroup
    else if seen.contains name then some (.repeatedGroup name)
    else nameFault? (name :: seen) rest

/-- Reads settings from JSON text; `path` is only for messages. -/
def parse (path text : Text) : Except SettingsFault Settings :=
  match Json.read? text with
  | none => .error (.notJson path)
  | some json =>
    match shape.read json with
    | .error mismatch => .error (.wrongShape path mismatch)
    | .ok settings =>
      match nameFault? [] (settings.groupView.groups.map (·.name)) with
      | some fault => .error fault
      | none => .ok settings

end Settings
end TraceReport
