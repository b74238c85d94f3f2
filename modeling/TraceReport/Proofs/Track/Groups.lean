import Mathlib.Algebra.GroupWithZero.Nat
import Mathlib.Data.List.Nodup
import Mathlib.Data.List.Pairwise
import Mathlib.Tactic.SplitIfs
import TraceReport.Settings.Reader
import TraceReport.Track.Groups

namespace TraceReport

namespace Settings

/-- No fault is found in names that are not empty, differ, and were not seen before. -/
theorem nameFault?_eq_none_iff {seen names : List Text} :
    nameFault? seen names = none ↔
      (∀ name ∈ names, name ≠ [] ∧ name ∉ seen) ∧ names.Nodup := by
  induction names generalizing seen with
  | nil => simp [nameFault?]
  | cons name rest ih =>
    rw [List.forall_mem_cons, List.nodup_cons]
    simp only [nameFault?]
    split_ifs with hempty hseen
    · have hnil : name = [] := List.isEmpty_iff.mp hempty
      simp [hnil]
    · have hmem : name ∈ seen := by simpa using hseen
      simp [hmem]
    · have hname : name ≠ [] ∧ name ∉ seen :=
        ⟨by simpa using hempty, by simpa using hseen⟩
      have hapart : (∀ other ∈ rest, other ≠ [] ∧ other ∉ name :: seen) ↔
          (∀ other ∈ rest, other ≠ [] ∧ other ∉ seen) ∧ name ∉ rest := by
        constructor
        · intro h
          exact ⟨fun other hm => (h other hm).imp_right (mt (List.mem_cons_of_mem _)),
            fun hm => (h name hm).2 List.mem_cons_self⟩
        · rintro ⟨h, hrest⟩ other hm
          have hother : other ≠ name := fun heq => hrest (heq ▸ hm)
          exact (h other hm).imp_right (List.not_mem_cons_of_ne_of_not_mem hother)
      rw [ih, hapart]
      tauto

theorem parse_eq_ok_iff {path text : Text} {settings : Settings} :
    parse path text = .ok settings ↔ ∃ json, Json.read? text = some json ∧
      shape.read json = .ok settings ∧
        nameFault? [] (settings.groupView.groups.map (·.name)) = none := by
  unfold parse
  constructor
  · intro h
    split at h
    · cases h
    · next json hjson =>
      split at h
      · cases h
      · next found hshape =>
        split at h
        · cases h
        · next hnames =>
          cases h
          exact ⟨json, hjson, hshape, hnames⟩
  · rintro ⟨json, hjson, hshape, hnames⟩
    simp only [hjson, hshape, hnames]

/-- The groups of settings that are read have names of their own. -/
theorem groups_nodup_of_parse {path text : Text} {settings : Settings}
    (h : parse path text = .ok settings) : (settings.groupView.groups.map (·.name)).Nodup := by
  obtain ⟨-, -, -, hnames⟩ := parse_eq_ok_iff.mp h
  exact (nameFault?_eq_none_iff.mp hnames).2

end Settings

namespace LaneSettings

/-- Whether a lane is for a signal of a process. -/
def isFor (lane : LaneSettings) (process signal : Text) : Bool :=
  lane.process == process && lane.physical == Groups.withoutSpaces signal

end LaneSettings

namespace Settings

/-- How many lanes the enabled groups have before one of them. -/
def lanesBefore (settings : Settings) (i : Nat) : Nat :=
  ((settings.enabledGroups.take i).map fun group => group.lanes.length).sum

/-- The tracks and lanes on which groups show a signal of a process: for every enabled group that
has a lane for it, the first one. -/
def echoes (settings : Settings) (process signal : Text) : List (ProcessId × ThreadId) :=
  settings.enabledGroups.zipIdx.filterMap fun (group, i) =>
    (group.lanes.findIdx? fun lane => lane.isFor process signal).map fun k =>
      (Groups.firstPid - i, (settings.lanesBefore i + k : Nat))

end Settings

/-- An enabled group as it is laid out: its track and its own lanes. -/
structure Groups.Section where
  track : Groups.Track
  lanes : List Lane

/-- The lane of settings in a group, with its number. -/
def LaneSettings.numbered (lane : LaneSettings) (group : Text) (i : Nat) : Lane :=
  ⟨group, lane.process, lane.physical, lane.logical, i⟩

/-- The enabled groups in order. Lanes are counted on from group to group. -/
def Settings.sections (settings : Settings) : List Groups.Section :=
  settings.enabledGroups.zipIdx.map fun (group, i) =>
    { track := ⟨group.name, Groups.firstPid - i⟩
      lanes := (group.lanes.zipIdx (settings.lanesBefore i)).map fun (lane, k) =>
        lane.numbered group.name k }

/-- What a lane shows, and on which group. -/
def Lane.key (lane : Lane) : Text × Text × Text := (lane.group, lane.process, lane.physical)

namespace Groups

/-- Groups that are told apart by their names, with lanes that are told apart by their ids and are
all on some track. -/
structure Distinct (groups : Groups) : Prop where
  names : (groups.tracks.map (·.name)).Nodup
  tids : (groups.lanes.map (·.tid)).Nodup
  home : ∀ lane ∈ groups.lanes, ∃ track ∈ groups.tracks, track.name = lane.group

section

variable {groups : Groups}

namespace Distinct

theorem track_eq (h : groups.Distinct) {a b : Track} (ha : a ∈ groups.tracks)
    (hb : b ∈ groups.tracks) (hname : a.name = b.name) : a = b :=
  List.inj_on_of_nodup_map h.names ha hb hname

theorem lane_eq (h : groups.Distinct) {a b : Lane} (ha : a ∈ groups.lanes)
    (hb : b ∈ groups.lanes) (htid : a.tid = b.tid) : a = b :=
  List.inj_on_of_nodup_map h.tids ha hb htid

theorem pid?_eq (h : groups.Distinct) {track : Track} (ht : track ∈ groups.tracks) :
    groups.pid? track.name = some track.pid := by
  have hfound : (groups.tracks.find? fun other => other.name == track.name).isSome := by
    rw [List.find?_isSome]
    exact ⟨track, ht, beq_self_eq_true _⟩
  obtain ⟨other, hother⟩ := Option.isSome_iff_exists.mp hfound
  have hbeq := List.find?_some hother
  have hname : other.name = track.name := beq_iff_eq.mp hbeq
  have hsame := h.track_eq (List.mem_of_find?_eq_some hother) ht hname
  rw [pid?, hother, hsame]
  rfl

end Distinct

theorem mem_showing {process signal : Text} {track : Track} {lane : Lane} :
    (track, lane) ∈ groups.showing process signal ↔
      track ∈ groups.tracks ∧ groups.lanes.find? (fun lane =>
        lane.group == track.name && shows lane (sighting process signal)) = some lane := by
  rw [showing, List.mem_filterMap]
  constructor
  · intro h
    obtain ⟨found, ht, hlane⟩ := h
    obtain ⟨first, hfirst, heq⟩ := Option.map_eq_some_iff.mp hlane
    obtain ⟨rfl, rfl⟩ := Prod.mk.inj heq
    exact ⟨ht, hfirst⟩
  · intro h
    exact ⟨track, h.1, by rw [h.2]; rfl⟩

theorem key_of_find? {process signal : Text} {track : Track} {lane : Lane}
    (h : groups.lanes.find? (fun lane =>
      lane.group == track.name && shows lane (sighting process signal)) = some lane) :
    lane.group = track.name ∧ sighting process signal = (lane.process, lane.physical) := by
  have hshows := List.find?_some h
  simp only [shows, Bool.and_eq_true, beq_iff_eq] at hshows
  obtain ⟨hgroup, hprocess, hphysical⟩ := hshows
  exact ⟨hgroup, (Prod.ext hprocess hphysical).symm⟩

/-- A group shows a signal when one of its lanes does. -/
theorem exists_showing {process signal : Text} {track : Track} {lane : Lane}
    (ht : track ∈ groups.tracks) (hl : lane ∈ groups.lanes) (hgroup : lane.group = track.name)
    (hshown : sighting process signal = (lane.process, lane.physical)) :
    ∃ first, (track, first) ∈ groups.showing process signal := by
  have hfound : (groups.lanes.find? fun lane =>
      lane.group == track.name && shows lane (sighting process signal)).isSome := by
    rw [List.find?_isSome]
    refine ⟨lane, hl, ?_⟩
    rw [hshown]
    simp [shows, hgroup]
  obtain ⟨first, hfirst⟩ := Option.isSome_iff_exists.mp hfound
  exact ⟨first, mem_showing.mpr ⟨ht, hfirst⟩⟩

end

section

variable {settings : Settings}

theorem names_ofSettings :
    (ofSettings settings).tracks.map (·.name) = settings.enabledGroups.map (·.name) := by
  rw [ofSettings, List.map_map]
  show List.map ((fun group : GroupSettings => group.name) ∘ Prod.fst) _ = _
  rw [← List.map_map, List.zipIdx_map_fst]

theorem enabledGroups_nodup (h : (settings.groupView.groups.map (·.name)).Nodup) :
    (settings.enabledGroups.map (·.name)).Nodup := by
  have hsub : settings.enabledGroups.Sublist settings.groupView.groups := List.filter_sublist
  exact (hsub.map _).nodup h

/-- The tracks count down from the first. -/
theorem pids_ofSettings :
    (ofSettings settings).tracks.map (·.pid) =
      (List.range (ofSettings settings).tracks.length).map fun i : Nat => firstPid - (i : Int) := by
  have hlength : (ofSettings settings).tracks.length = settings.enabledGroups.length := by
    rw [ofSettings, List.length_map, List.length_zipIdx]
  rw [hlength, List.range_eq_range', ← List.zipIdx_map_snd 0 settings.enabledGroups, ofSettings,
    List.map_map, List.map_map]
  rfl

/-- The lanes count up through all groups. -/
theorem tids_ofSettings :
    (ofSettings settings).lanes.map (·.tid) =
      (List.range (ofSettings settings).lanes.length).map fun i : Nat => (i : Int) := by
  have hlength : (ofSettings settings).lanes.length =
      (settings.enabledGroups.flatMap lanesOf).length := by
    rw [ofSettings, List.length_map, List.length_zipIdx]
  rw [hlength, List.range_eq_range',
    ← List.zipIdx_map_snd 0 (settings.enabledGroups.flatMap lanesOf),
    ofSettings, List.map_map, List.map_map]
  rfl

theorem pids_nodup : ((ofSettings settings).tracks.map (·.pid)).Nodup := by
  rw [pids_ofSettings]
  refine List.nodup_range.map ?_
  intro i j hij
  have hsame : (-3 : Int) - i = -3 - j := hij
  omega

theorem tids_nodup : ((ofSettings settings).lanes.map (·.tid)).Nodup := by
  rw [tids_ofSettings]
  refine List.nodup_range.map ?_
  intro i j hij
  exact Int.ofNat_inj.mp hij

/-- The groups of settings whose group names differ. -/
theorem ofSettings_distinct (h : (settings.groupView.groups.map (·.name)).Nodup) :
    (ofSettings settings).Distinct := by
  constructor
  case names =>
    rw [names_ofSettings]
    exact enabledGroups_nodup h
  case tids => exact tids_nodup
  case home =>
    intro lane hlane
    obtain ⟨⟨⟨name, parts⟩, i⟩, hm, rfl⟩ := List.mem_map.mp hlane
    have hparts : (name, parts) ∈ settings.enabledGroups.flatMap lanesOf :=
      List.fst_mem_of_mem_zipIdx hm
    obtain ⟨group, hgroup, hof⟩ := List.mem_flatMap.mp hparts
    obtain ⟨own, -, heq⟩ := List.mem_map.mp hof
    obtain ⟨rfl, rfl⟩ := Prod.mk.inj heq
    have hname : group.name ∈ (ofSettings settings).tracks.map (·.name) := by
      rw [names_ofSettings]
      exact List.mem_map.mpr ⟨group, hgroup, rfl⟩
    exact List.mem_map.mp hname

/-- The tracks of groups are below those of the other views. -/
theorem pid?_le {name : Text} {pid : ProcessId} (h : (ofSettings settings).pid? name = some pid) :
    pid ≤ firstPid := by
  obtain ⟨track, htrack, rfl⟩ := Option.map_eq_some_iff.mp h
  obtain ⟨entry, -, rfl⟩ := List.mem_map.mp (List.mem_of_find?_eq_some htrack)
  show (-3 : Int) - entry.2 ≤ -3
  omega

/-- When no enabled group has two lanes for one signal of a process, what lanes show tells them
apart. -/
theorem keys_ofSettings (h : (settings.groupView.groups.map (·.name)).Nodup)
    (hlanes : ∀ group ∈ settings.enabledGroups,
      (group.lanes.map fun lane => (lane.process, lane.physical)).Nodup) :
    ((ofSettings settings).lanes.map Lane.key).Nodup := by
  have hkeys : (ofSettings settings).lanes.map Lane.key =
      settings.enabledGroups.flatMap fun group =>
        (group.lanes.map fun lane => (lane.process, lane.physical)).map fun shown =>
          (group.name, shown) := by
    rw [ofSettings, List.map_map]
    show List.map ((fun entry : Text × LaneSettings =>
      (entry.1, entry.2.process, entry.2.physical)) ∘ Prod.fst) _ = _
    rw [← List.map_map, List.zipIdx_map_fst, List.map_flatMap]
    simp only [lanesOf, List.map_map]
    rfl
  rw [hkeys, List.nodup_flatMap]
  constructor
  · intro group hgroup
    refine (hlanes group hgroup).map ?_
    intro a b hab
    exact (Prod.mk.inj hab).2
  · have hnames : settings.enabledGroups.Pairwise fun a b => a.name ≠ b.name :=
      List.pairwise_map.mp (enabledGroups_nodup h)
    apply hnames.imp
    intro a b hne key ha hb
    obtain ⟨shown, -, rfl⟩ := List.mem_map.mp ha
    obtain ⟨other, -, heq⟩ := List.mem_map.mp hb
    exact hne (Prod.mk.inj heq).1.symm

/-- Positions in joined lists go on from part to part. -/
theorem zipIdx_flatMap {α β : Type} (f : α → List β) (list : List α) (n : Nat) :
    (list.flatMap f).zipIdx n = list.zipIdx.flatMap fun (a, i) =>
      (f a).zipIdx (n + ((list.take i).map fun a => (f a).length).sum) := by
  induction list generalizing n with
  | nil => rfl
  | cons a rest ih =>
    rw [List.flatMap_cons, List.zipIdx_append, ih, List.zipIdx_cons, List.flatMap_cons,
      List.zipIdx_succ, List.flatMap_map]
    simp [Nat.add_assoc]

theorem tracks_ofSettings (settings : Settings) :
    (ofSettings settings).tracks = settings.sections.map (·.track) := by
  rw [Settings.sections, List.map_map]
  rfl

theorem lanes_ofSettings (settings : Settings) :
    (ofSettings settings).lanes = settings.sections.flatMap (·.lanes) := by
  have hlength (group : GroupSettings) : (lanesOf group).length = group.lanes.length :=
    List.length_map _
  rw [ofSettings, zipIdx_flatMap, List.map_flatMap, Settings.sections, List.flatMap_map]
  apply List.flatMap_congr
  rintro ⟨group, i⟩ -
  simp only [hlength, Nat.zero_add]
  rw [lanesOf, List.zipIdx_map, List.map_map]
  rfl

theorem group_of_mem_sections {s : Section} (hs : s ∈ settings.sections) :
    ∀ lane ∈ s.lanes, lane.group = s.track.name := by
  obtain ⟨⟨group, i⟩, -, rfl⟩ := List.mem_map.mp hs
  intro lane hlane
  obtain ⟨numbered, -, rfl⟩ := List.mem_map.mp hlane
  rfl

/-- When the names of sections differ, the lanes with the name of one are its own. -/
theorem filter_flatMap_lanes {sections : List Section}
    (hnames : (sections.map (·.track.name)).Nodup)
    (hown : ∀ s ∈ sections, ∀ lane ∈ s.lanes, lane.group = s.track.name)
    {s : Section} (hs : s ∈ sections) :
    (sections.flatMap (·.lanes)).filter (fun lane => lane.group == s.track.name) = s.lanes := by
  have hmine : s.lanes.filter (fun lane => lane.group == s.track.name) = s.lanes := by
    apply List.filter_eq_self.mpr
    intro lane hlane
    simp [hown s hs lane hlane]
  have hothers {parts : List Section} (hparts : ∀ t ∈ parts, t ∈ sections)
      (hne : s.track.name ∉ parts.map (·.track.name)) :
      (parts.flatMap (·.lanes)).filter (fun lane => lane.group == s.track.name) = [] := by
    apply List.filter_eq_nil_iff.mpr
    intro lane hlane
    obtain ⟨t, ht, hlane⟩ := List.mem_flatMap.mp hlane
    rw [hown t (hparts t ht) lane hlane, beq_iff_eq]
    intro hname
    exact hne (hname ▸ List.mem_map_of_mem ht)
  obtain ⟨before, after, rfl⟩ := List.append_of_mem hs
  rw [List.map_append, List.map_cons, List.nodup_middle, List.nodup_cons, List.mem_append,
    not_or] at hnames
  obtain ⟨⟨hbefore, hafter⟩, -⟩ := hnames
  rw [List.flatMap_append, List.flatMap_cons, List.filter_append, List.filter_append, hmine,
    hothers (fun t ht => by simp [ht]) hbefore, hothers (fun t ht => by simp [ht]) hafter,
    List.nil_append, List.append_nil]

section

variable (h : (settings.groupView.groups.map (·.name)).Nodup)
include h

/-- Looked up by the name of a section among the lanes of all, its own lanes are found. -/
theorem find?_section {s : Section} (hs : s ∈ settings.sections) (p : Lane → Bool) :
    (ofSettings settings).lanes.find? (fun lane => lane.group == s.track.name && p lane) =
      s.lanes.find? p := by
  have hnames : (settings.sections.map (·.track.name)).Nodup := by
    have heq := @names_ofSettings settings
    rw [tracks_ofSettings, List.map_map] at heq
    exact heq ▸ enabledGroups_nodup h
  have hmine := filter_flatMap_lanes hnames (fun t ht => group_of_mem_sections ht) hs
  conv_rhs => rw [← hmine, List.find?_filter]
  simp only [lanes_ofSettings, Bool.decide_and, Bool.decide_eq_true]

/-- Every enabled group shows a signal on the first of its own lanes that is for it. -/
theorem showing_sections (process signal : Text) :
    (ofSettings settings).showing process signal = settings.sections.filterMap fun s =>
      (s.lanes.find? fun lane => shows lane (sighting process signal)).map fun lane =>
        (s.track, lane) := by
  rw [showing, tracks_ofSettings, List.filterMap_map]
  apply List.filterMap_congr
  intro s hs
  rw [← find?_section h hs]
  rfl

/-- The ids under which every enabled group shows a signal. -/
theorem showing_ofSettings (process signal : Text) :
    ((ofSettings settings).showing process signal).map (fun (track, lane) =>
      (track.pid, lane.tid)) = settings.echoes process signal := by
  rw [showing_sections h, Settings.sections, Settings.echoes, List.filterMap_map,
    List.map_filterMap]
  apply List.filterMap_congr
  rintro ⟨group, i⟩ -
  have hnumbers := @List.zipIdx_eq_map_add _ group.lanes (settings.lanesBefore i)
  simp only [Function.comp_apply, List.findIdx?_eq_fst_find?_zipIdx, Option.map_map, hnumbers,
    List.map_map, List.find?_map]
  rfl

end

end

end Groups
end TraceReport
