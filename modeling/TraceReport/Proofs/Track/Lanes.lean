import Mathlib.Algebra.Group.Int.Defs
import TraceReport.Proofs.Outcome
import TraceReport.Proofs.Track.Groups

namespace TraceReport

/-- What the settings say of a lane. -/
def Lane.settings (lane : Lane) : LaneSettings := ⟨lane.process, lane.physical, lane.logical⟩

namespace Groups

section

variable {settings : Settings}

/-- Sections are the enabled groups with all their lanes. -/
theorem sections_settings :
    (settings.sections.map fun s =>
        (s.track.name, s.lanes.map fun lane => (lane.group, lane.settings))) =
      settings.enabledGroups.map fun group => (group.name, lanesOf group) := by
  have hlanes (group : GroupSettings) (n : Nat) :
      ((group.lanes.zipIdx n).map fun entry => entry.1.numbered group.name entry.2).map
        (fun lane => (lane.group, lane.settings)) = lanesOf group := by
    rw [List.map_map, lanesOf]
    conv_rhs => rw [← List.zipIdx_map_fst n group.lanes, List.map_map]
    rfl
  rw [Settings.sections, List.map_map]
  conv_rhs => rw [← List.zipIdx_map_fst 0 settings.enabledGroups, List.map_map]
  apply List.map_congr_left
  rintro ⟨group, i⟩ -
  exact congrArg (Prod.mk group.name) (hlanes group _)

theorem ids_fit (htracks : (ofSettings settings).tracks.length < 2 ^ 62)
    (hlanes : (ofSettings settings).lanes.length < 2 ^ 62) :
    (∀ track ∈ (ofSettings settings).tracks, -2 ^ 63 ≤ track.pid) ∧
      ∀ lane ∈ (ofSettings settings).lanes, lane.tid < 2 ^ 63 := by
  constructor
  · intro track htrack
    have hpid := List.mem_map_of_mem (f := (·.pid)) htrack
    rw [pids_ofSettings] at hpid
    obtain ⟨i, hi, heq⟩ := List.mem_map.mp hpid
    have hbound := List.mem_range.mp hi
    have hlow : (-2 ^ 63 : Int) ≤ -3 - i := by omega
    exact heq ▸ hlow
  · intro lane hlane
    have htid := List.mem_map_of_mem (f := (·.tid)) hlane
    rw [tids_ofSettings] at htid
    obtain ⟨i, hi, heq⟩ := List.mem_map.mp htid
    have hbound := List.mem_range.mp hi
    have hhigh : (i : Int) < 2 ^ 63 := by omega
    exact heq ▸ hhigh

/-- The groups of settings that are read agree with the settings, group by group. Each enabled
group shows a signal on the first of its own lanes that is for it, and is left out when it has none.
Tracks count down from the first and lanes count up through all groups, so no two share an id. With
fewer than 2 ^ 62 of either, ids stay within 64 bits. -/
theorem laid_out_as_set {path text : Text} (hparse : Settings.parse path text = .ok settings) :
    let groups := ofSettings settings
    let sections := settings.sections
    (sections.map fun s => (s.track.name, s.lanes.map fun lane => (lane.group, lane.settings))) =
      settings.enabledGroups.map (fun group => (group.name, lanesOf group)) ∧
    (groups.tracks = sections.map (·.track) ∧ groups.lanes = sections.flatMap (·.lanes)) ∧
    (∀ process signal, groups.showing process signal = sections.filterMap fun s =>
      (s.lanes.find? fun lane =>
        lane.process == process && lane.physical == withoutSpaces signal).map fun lane =>
          (s.track, lane)) ∧
    groups.tracks.map (·.pid) =
      (List.range groups.tracks.length).map (fun i : Nat => -3 - (i : Int)) ∧
    groups.lanes.map (·.tid) =
      (List.range groups.lanes.length).map (fun i : Nat => (i : Int)) ∧
    (groups.tracks.map (·.pid)).Nodup ∧ (groups.lanes.map (·.tid)).Nodup ∧
    (groups.tracks.length < 2 ^ 62 → groups.lanes.length < 2 ^ 62 →
      (∀ track ∈ groups.tracks, -2 ^ 63 ≤ track.pid) ∧
        ∀ lane ∈ groups.lanes, lane.tid < 2 ^ 63) := by
  intro groups sections
  have hnames := Settings.groups_nodup_of_parse hparse
  refine ⟨sections_settings, ⟨tracks_ofSettings settings, lanes_ofSettings settings⟩, ?_,
    pids_ofSettings, tids_ofSettings, pids_nodup, tids_nodup, ids_fit⟩
  intro process signal
  exact showing_sections hnames process signal

/-- Two enabled groups with a disabled one between them. The first has two lanes for one signal. -/
def partSettings : Settings where
  ignoreRules := []
  userView := false
  groupView := ⟨true, [
    ⟨"Chat".toList, true, [⟨"Web".toList, "message".toList, "Page".toList⟩,
      ⟨"App".toList, "message".toList, "Talk".toList⟩,
      ⟨"App".toList, "message".toList, "Again".toList⟩]⟩,
    ⟨"Off".toList, false, [⟨"App".toList, "message".toList, "Hidden".toList⟩]⟩,
    ⟨"Work".toList, true, [⟨"App".toList, "message".toList, "Note".toList⟩]⟩]⟩
  cpuView := false

def partText : Text :=
  "[[],[false],[true,[[\"Chat\",true,[[\"Web\",\"message\",\"Page\"],".toList ++
    "[\"App\",\"message\",\"Talk\"],[\"App\",\"message\",\"Again\"]]],".toList ++
    "[\"Off\",false,[[\"App\",\"message\",\"Hidden\"]]],".toList ++
    "[\"Work\",true,[[\"App\",\"message\",\"Note\"]]]]],[false]]".toList

/-- A message is shown on the second lane of the one group and on the only lane of the other. -/
theorem laid_out_as_set_parts :
    Settings.parse [] partText = .ok partSettings ∧
      ((ofSettings partSettings).showing "App".toList " mess age".toList).map
        (fun (track, lane) => (track.pid, lane.tid, lane.logical)) =
          [(-3, 1, "Talk".toList), (-4, 3, "Note".toList)] := by
  have hparse : Settings.parse [] partText = .ok partSettings :=
    toOption_eq_some_iff.mp (by decide +kernel)
  refine ⟨hparse, ?_⟩
  rw [(laid_out_as_set hparse).2.2.1]
  decide +kernel

end

section

variable {groups : Groups} {pid : ProcessId} {lane : Lane}

theorem not_mem_withoutSpaces (signal : Text) : ' ' ∉ withoutSpaces signal := by
  intro hm
  simpa using (List.mem_filter.mp hm).2

theorem withoutSpaces_of_not_mem {signal : Text} (h : ' ' ∉ signal) :
    withoutSpaces signal = signal := by
  apply List.filter_eq_self.mpr
  intro c hc
  have hne : c ≠ ' ' := by
    rintro rfl
    exact h hc
  simpa using hne

theorem mem_sighted {seen : List Sighting} :
    (pid, lane) ∈ groups.sighted seen ↔ lane ∈ groups.lanes ∧
      (lane.process, lane.physical) ∈ seen ∧ groups.pid? lane.group = some pid := by
  rw [sighted, List.mem_filterMap]
  constructor
  · rintro ⟨own, hown, hfound⟩
    split_ifs at hfound with hseen
    obtain ⟨found, hpid, heq⟩ := Option.map_eq_some_iff.mp hfound
    obtain ⟨rfl, rfl⟩ := Prod.mk.inj heq
    exact ⟨hown, List.contains_iff_mem.mp hseen, hpid⟩
  · rintro ⟨hlane, hseen, hpid⟩
    exact ⟨lane, hlane, by rw [if_pos (List.contains_iff_mem.mpr hseen), hpid]; rfl⟩

section Spaced

variable (hspace : ' ' ∈ lane.physical) (process signal : Text)
include hspace

theorem sighting_ne_of_space : sighting process signal ≠ (lane.process, lane.physical) := by
  intro heq
  have hname : withoutSpaces signal = lane.physical := (Prod.mk.inj heq).2
  exact not_mem_withoutSpaces signal (hname ▸ hspace)

/-- A lane whose name has a space shows no signal. -/
theorem not_mem_showing_of_space (track : Track) :
    (track, lane) ∉ groups.showing process signal := by
  intro hshown
  obtain ⟨-, hfind⟩ := mem_showing.mp hshown
  exact sighting_ne_of_space hspace process signal (key_of_find? hfind).2

/-- No signal is sighted for a lane whose name has a space. -/
theorem mem_sighted_of_space {seen : List Sighting}
    (hsighted : (pid, lane) ∈ groups.sighted (seen.insert (sighting process signal))) :
    (pid, lane) ∈ groups.sighted seen := by
  obtain ⟨hlane, hseen, hpid⟩ := mem_sighted.mp hsighted
  have hbefore := (List.mem_insert_iff.mp hseen).resolve_left
    (sighting_ne_of_space hspace process signal).symm
  exact mem_sighted.mpr ⟨hlane, hbefore, hpid⟩

end Spaced

end

section

variable {settings : Settings} {s : Section} (hs : s ∈ settings.sections)
include hs

theorem track_mem_ofSettings : s.track ∈ (ofSettings settings).tracks := by
  rw [tracks_ofSettings]
  exact List.mem_map_of_mem hs

theorem lane_mem_ofSettings {lane : Lane} (hl : lane ∈ s.lanes) :
    lane ∈ (ofSettings settings).lanes := by
  rw [lanes_ofSettings]
  exact List.mem_flatMap.mpr ⟨s, hs, hl⟩

variable (h : (settings.groupView.groups.map (·.name)).Nodup)
include h

/-- A group shows a signal when some lane of its own is for it. -/
theorem track_mem_showing_iff (process signal : Text) :
    s.track ∈ ((ofSettings settings).showing process signal).map Prod.fst ↔
      ∃ lane ∈ s.lanes, lane.process = process ∧ lane.physical = withoutSpaces signal := by
  constructor
  · intro hshown
    obtain ⟨⟨track, lane⟩, hmem, rfl⟩ := List.mem_map.mp hshown
    obtain ⟨-, hfind⟩ := mem_showing.mp hmem
    obtain ⟨-, hkey⟩ := key_of_find? hfind
    rw [find?_section h hs] at hfind
    exact ⟨lane, List.mem_of_find?_eq_some hfind, (Prod.mk.inj hkey).1.symm,
      (Prod.mk.inj hkey).2.symm⟩
  · rintro ⟨lane, hlane, rfl, hphysical⟩
    have hshown : sighting lane.process signal = (lane.process, lane.physical) := by
      rw [sighting, hphysical]
    obtain ⟨first, hfirst⟩ :=
      exists_showing (track_mem_ofSettings hs) (lane_mem_ofSettings hs hlane)
        (group_of_mem_sections hs lane hlane) hshown
    exact List.mem_map.mpr ⟨(s.track, first), hfirst, rfl⟩

/-- Of the lanes of a group for one signal, whose name has no spaces, the first shows it, and is
sighted with it. -/
theorem shown_of_no_space {lane : Lane} (hl : lane ∈ s.lanes) (hspace : ' ' ∉ lane.physical) :
    ∃ first, s.lanes.find? (fun other =>
        other.process == lane.process && other.physical == lane.physical) = some first ∧
      (s.track, first) ∈ (ofSettings settings).showing lane.process lane.physical ∧
      ∀ seen : List Sighting, (s.track.pid, first) ∈
        (ofSettings settings).sighted (seen.insert (sighting lane.process lane.physical)) := by
  have hname : withoutSpaces lane.physical = lane.physical := withoutSpaces_of_not_mem hspace
  obtain ⟨first, hfirst⟩ : ∃ first, s.lanes.find? (fun other =>
      shows other (sighting lane.process lane.physical)) = some first := by
    apply Option.isSome_iff_exists.mp
    rw [List.find?_isSome]
    exact ⟨lane, hl, by simp [shows, sighting, hname]⟩
  have hfind := (find?_section h hs _).trans hfirst
  obtain ⟨hgroup, hkey⟩ := key_of_find? hfind
  refine ⟨first, ?_, mem_showing.mpr ⟨track_mem_ofSettings hs, hfind⟩, fun seen => ?_⟩
  · simpa only [shows, sighting, hname] using hfirst
  · apply mem_sighted.mpr
    refine ⟨List.mem_of_find?_eq_some hfind, ?_, ?_⟩
    · rw [hkey]
      exact List.mem_insert_self
    · rw [hgroup]
      exact (ofSettings_distinct h).pid?_eq (track_mem_ofSettings hs)

end

/-- When a lane is found by the name it has in the settings. Its group shows a signal of that name
if some lane of the group is called so but for the spaces. Without spaces in the name, the first
lane of the name shows the signal and is sighted with it. A lane whose name has a space never shows
a signal and is never sighted. -/
theorem found_by_name {path text : Text} {settings : Settings}
    (hparse : Settings.parse path text = .ok settings) {s : Section}
    (hs : s ∈ settings.sections) {lane : Lane} (hl : lane ∈ s.lanes) :
    let groups := ofSettings settings
    (s.track ∈ (groups.showing lane.process lane.physical).map Prod.fst ↔
      ∃ other ∈ s.lanes, other.process = lane.process ∧
        other.physical = withoutSpaces lane.physical) ∧
    (' ' ∉ lane.physical → ∃ first,
      s.lanes.find? (fun other =>
        other.process == lane.process && other.physical == lane.physical) = some first ∧
      (s.track, first) ∈ groups.showing lane.process lane.physical ∧
      ∀ seen : List Sighting, (s.track.pid, first) ∈
        groups.sighted (seen.insert (sighting lane.process lane.physical))) ∧
    (' ' ∈ lane.physical → ∀ process signal,
      (∀ track, (track, lane) ∉ groups.showing process signal) ∧
      ∀ pid (seen : List Sighting),
        (pid, lane) ∈ groups.sighted (seen.insert (sighting process signal)) →
          (pid, lane) ∈ groups.sighted seen) := by
  intro groups
  have hnames := Settings.groups_nodup_of_parse hparse
  refine ⟨track_mem_showing_iff hs hnames _ _, shown_of_no_space hs hnames hl, ?_⟩
  intro hspace process signal
  exact ⟨not_mem_showing_of_space hspace process signal,
    fun pid seen => mem_sighted_of_space hspace process signal⟩

/-- A group whose first lane has a name of two words. -/
def spacedSettings : Settings where
  ignoreRules := []
  userView := false
  groupView := ⟨true, [⟨"Render".toList, true,
    [⟨"App".toList, "frame done".toList, "Done".toList⟩,
      ⟨"App".toList, "frame".toList, "Frame".toList⟩]⟩]⟩
  cpuView := false

def spacedText : Text :=
  "[[],[false],[true,[[\"Render\",true,[[\"App\",\"frame done\",\"Done\"],".toList ++
    "[\"App\",\"frame\",\"Frame\"]]]]],[false]]".toList

def spacedSection : Section where
  track := ⟨"Render".toList, -3⟩
  lanes := [⟨"Render".toList, "App".toList, "frame done".toList, "Done".toList, 0⟩,
    ⟨"Render".toList, "App".toList, "frame".toList, "Frame".toList, 1⟩]

/-- The lane of one word is found by its name, and the lane of two words by none. -/
theorem found_by_name_spaced :
    Settings.parse [] spacedText = .ok spacedSettings ∧
    spacedSection ∈ spacedSettings.sections ∧
    (∀ done ∈ spacedSection.lanes.head?, ∀ process signal track,
      (track, done) ∉ (ofSettings spacedSettings).showing process signal) ∧
    ∀ frame ∈ spacedSection.lanes.getLast?,
      spacedSection.track ∈
        ((ofSettings spacedSettings).showing frame.process frame.physical).map Prod.fst ∧
      ∃ first, (spacedSection.track, first) ∈
        (ofSettings spacedSettings).showing frame.process frame.physical ∧ first.tid = 1 := by
  have hparse : Settings.parse [] spacedText = .ok spacedSettings :=
    toOption_eq_some_iff.mp (by decide +kernel)
  have hs : spacedSection ∈ spacedSettings.sections := List.mem_singleton.mpr rfl
  refine ⟨hparse, hs, fun done hdone => ?_, fun frame hframe => ?_⟩
  · obtain rfl := Option.some.inj hdone
    intro process signal
    exact ((found_by_name hparse hs (List.mem_cons_self)).2.2 (by decide) process signal).1
  · obtain rfl := Option.some.inj hframe
    obtain ⟨htrack, hfirst, -⟩ := found_by_name hparse hs (List.mem_of_getLast? hframe)
    obtain ⟨first, hfind, hshown, -⟩ := hfirst (by decide)
    obtain rfl := Option.some.inj hfind
    exact ⟨htrack.mpr ⟨_, List.mem_of_getLast? hframe, rfl, by decide⟩, _, hshown, rfl⟩

/-- Every lane is found by the name it has in the settings: its group shows a signal of the name,
and the first lane of the name is sighted with it. -/
def FoundByName (settings : Settings) : Prop :=
  ∀ s ∈ settings.sections, ∀ lane ∈ s.lanes,
    s.track ∈ ((ofSettings settings).showing lane.process lane.physical).map Prod.fst ∧
    ∀ first ∈ s.lanes.find? (fun other =>
        other.process == lane.process && other.physical == lane.physical),
      (s.track.pid, first) ∈
        (ofSettings settings).sighted [sighting lane.process lane.physical]

instance (settings : Settings) : Decidable (FoundByName settings) :=
  inferInstanceAs (Decidable (∀ s ∈ settings.sections, ∀ lane ∈ s.lanes, _))

/-- A lane of two words is not found. -/
theorem not_foundByName :
    Settings.parse [] spacedText = .ok spacedSettings ∧ ¬FoundByName spacedSettings :=
  ⟨toOption_eq_some_iff.mp (by decide +kernel), by decide +kernel⟩

end Groups
end TraceReport
