import TraceReport.Proofs.Conversion.Plan
import TraceReport.Proofs.Conversion.Sources
import TraceReport.Proofs.Conversion.UserTracks
import TraceReport.Proofs.Track.Groups

namespace TraceReport

namespace Groups

section

variable {groups : Groups}

theorem mem_placed {pid : ProcessId} {lane : Lane} :
    (pid, lane) ∈ groups.placed ↔ lane ∈ groups.lanes ∧ groups.pid? lane.group = some pid := by
  rw [placed, List.mem_filterMap]
  constructor
  · intro h
    obtain ⟨own, hown, hplaced⟩ := h
    obtain ⟨found, hpid, heq⟩ := Option.map_eq_some_iff.mp hplaced
    obtain ⟨rfl, rfl⟩ := Prod.mk.inj heq
    exact ⟨hown, hpid⟩
  · intro h
    exact ⟨lane, h.1, by rw [h.2]; rfl⟩

namespace Distinct

theorem mem_placed_of_track (h : groups.Distinct) {track : Track} {lane : Lane}
    (ht : track ∈ groups.tracks) (hl : lane ∈ groups.lanes) (hgroup : lane.group = track.name) :
    (track.pid, lane) ∈ groups.placed :=
  mem_placed.mpr ⟨hl, by rw [hgroup, h.pid?_eq ht]⟩

theorem exists_track (h : groups.Distinct) {pid : ProcessId} {lane : Lane}
    (hp : (pid, lane) ∈ groups.placed) :
    lane ∈ groups.lanes ∧ ∃ track ∈ groups.tracks, lane.group = track.name ∧ track.pid = pid := by
  obtain ⟨hl, hpid⟩ := mem_placed.mp hp
  obtain ⟨track, ht, hname⟩ := h.home lane hl
  rw [← hname, h.pid?_eq ht] at hpid
  exact ⟨hl, track, ht, hname.symm, Option.some.inj hpid⟩

theorem placed_snd (h : groups.Distinct) : groups.placed.map Prod.snd = groups.lanes := by
  rw [placed, List.map_filterMap]
  refine (List.filterMap_congr ?_).trans List.filterMap_some
  intro lane hl
  obtain ⟨track, ht, hname⟩ := h.home lane hl
  rw [← hname, h.pid?_eq ht]
  rfl

end Distinct

end

end Groups

namespace Lane

/-- The track of a lane: the process is that of its group. -/
def track : ProcessId × Lane → ProcessId × ThreadId
  | (pid, lane) => (pid, lane.tid)

/-- Some event of a group is drawn on a lane. -/
def IsUsed (drawn : List Drawn) (placed : ProcessId × Lane) : Prop :=
  ∃ d ∈ drawn, d.origin = .group ∧ d.event.pid = placed.1 ∧ d.event.tid = some placed.2.tid

instance (drawn : List Drawn) (placed : ProcessId × Lane) : Decidable (IsUsed drawn placed) :=
  inferInstanceAs (Decidable (∃ d ∈ drawn, _))

/-- Some event of a group is drawn on a lane of the same group for the same signal. -/
def IsShown (groups : Groups) (drawn : List Drawn) (placed : ProcessId × Lane) : Prop :=
  ∃ twin ∈ groups.placed, twin.2.key = placed.2.key ∧ IsUsed drawn twin

instance (groups : Groups) (drawn : List Drawn) (placed : ProcessId × Lane) :
    Decidable (IsShown groups drawn placed) :=
  inferInstanceAs (Decidable (∃ twin ∈ groups.placed, _))

/-- Where no lane of a group is for the signal of another one, it is shown by its own events. -/
theorem isShown_iff_isUsed {groups : Groups} (hkeys : (groups.lanes.map key).Nodup)
    {drawn : List Drawn} {placed : ProcessId × Lane} (hp : placed ∈ groups.placed) :
    IsShown groups drawn placed ↔ IsUsed drawn placed := by
  obtain ⟨hlane, hpid⟩ := Groups.mem_placed.mp hp
  constructor
  · intro h
    obtain ⟨twin, htwin, hkey, hused⟩ := h
    obtain ⟨hlane', hpid'⟩ := Groups.mem_placed.mp htwin
    have hsame : twin.2 = placed.2 := List.inj_on_of_nodup_map hkeys hlane' hlane hkey
    have hown : some twin.1 = some placed.1 := by rw [← hpid', ← hpid, hsame]
    have htrack : twin = placed := Prod.ext (Option.some.inj hown) hsame
    exact htrack ▸ hused
  · intro h
    exact ⟨placed, hp, rfl, h⟩

end Lane

namespace Job

section

variable {job : Job}

/-- A user record is drawn on the lanes that show it, one on every group that has one. -/
theorem mem_drawUser_group {u : UserRecord} {d : Drawn} :
    (d ∈ job.drawUser u ∧ d.origin = .group) ↔
      job.views.group = true ∧ ∃ tracepoint phase, job.drawable? u = some tracepoint ∧
        tracepoint.onGroupView = .event phase ∧
        ∃ track lane, (track, lane) ∈ job.groups.showing u.header.process u.signal ∧
          d = ⟨.group, u.groupEvent phase track lane⟩ := by
  unfold drawUser
  cases job.drawable? u with
  | none => simp
  | some tracepoint =>
    constructor
    · intro h
      obtain ⟨hd, ho⟩ := h
      rcases List.mem_append.mp hd with huser | hgroup
      · simp [(Drawn.mem_of.mp huser).1] at ho
      · have he := (Drawn.mem_of.mp hgroup).2
        split_ifs at he with hview
        · unfold UserRecord.groupEvents at he
          split at he
          case h_1 phase hphase =>
            obtain ⟨⟨track, lane⟩, hm, heq⟩ := List.mem_map.mp he
            have hevent : u.groupEvent phase track lane = d.event := heq
            refine ⟨hview, tracepoint, phase, rfl, hphase, track, lane, hm, ?_⟩
            rw [← ho, hevent]
          case h_2 => simp at he
        · simp at he
    · intro h
      obtain ⟨hview, found, phase, hfound, hphase, track, lane, hm, rfl⟩ := h
      obtain rfl := Option.some.inj hfound
      refine ⟨List.mem_append_right _ (Drawn.mem_of.mpr ⟨rfl, ?_⟩), rfl⟩
      rw [if_pos hview, UserRecord.groupEvents, hphase]
      exact List.mem_map.mpr ⟨(track, lane), hm, rfl⟩

/-- What a user record draws does not depend on what came before it. -/
theorem mem_attributed_user {u : UserRecord} {d : Drawn} (p : Progress) (records : List Record) :
    (.user u, d) ∈ job.attributed p records ↔
      .user u ∈ records ∧ job.settings.ignores u.header.process u.header.provider = false ∧
        d ∈ job.drawUser u := by
  induction records generalizing p with
  | nil => simp [attributed]
  | cons record rest ih =>
    rw [attributed, List.mem_append, ih, List.mem_cons]
    have hhead : (.user u, d) ∈ (job.stepRecord p record).drawn.map (fun d => (record, d)) ↔
        .user u = record ∧ job.settings.ignores u.header.process u.header.provider = false ∧
          d ∈ job.drawUser u := by
      rw [List.mem_map]
      constructor
      · intro h
        obtain ⟨d', hd, heq⟩ := h
        obtain ⟨rfl, rfl⟩ := Prod.mk.inj heq
        have hstep : d' ∈ (job.stepUser p u).drawn := hd
        rw [stepUser_drawn] at hstep
        split_ifs at hstep with hignored
        · simp at hstep
        · exact ⟨rfl, by simpa using hignored, hstep⟩
      · intro h
        obtain ⟨rfl, hkept, hd⟩ := h
        refine ⟨d, ?_, rfl⟩
        show d ∈ (job.stepUser p u).drawn
        rw [stepUser_drawn, hkept]
        exact hd
    rw [hhead]
    tauto

theorem exists_step_of_attributed {record : Record} {d : Drawn} {p : Progress}
    {records : List Record} (h : (record, d) ∈ job.attributed p records) :
    ∃ q, d ∈ (job.stepRecord q record).drawn := by
  induction records generalizing p with
  | nil => simp [attributed] at h
  | cons first rest ih =>
    rcases List.mem_append.mp h with hfirst | hrest
    · obtain ⟨d', hd, heq⟩ := List.mem_map.mp hfirst
      obtain ⟨rfl, rfl⟩ := Prod.mk.inj heq
      exact ⟨p, hd⟩
    · exact ih hrest

/-- An event of a group is that of a user record, on a lane of the group that shows it. -/
theorem exists_showing_of_told {log : List Text} {d : Drawn}
    (hd : d ∈ (job.told log).map Prod.snd) (ho : d.origin = .group) :
    job.views.group = true ∧ ∃ u phase track lane,
      (track, lane) ∈ job.groups.showing u.header.process u.signal ∧
        (.user u, d) ∈ job.told log ∧ d = ⟨.group, u.groupEvent phase track lane⟩ := by
  obtain ⟨⟨record, d'⟩, hm, rfl⟩ := List.mem_map.mp hd
  have horigin : d'.origin = .group := ho
  cases record with
  | switch s =>
    obtain ⟨p, hstep⟩ := exists_step_of_attributed hm
    rcases stepRecord_drawn hstep with hschedule | husage
    · simp [hschedule] at horigin
    · simp [husage] at horigin
  | user u =>
    obtain ⟨-, -, hdraw⟩ := (mem_attributed_user _ _).mp hm
    obtain ⟨hview, tracepoint, phase, -, -, track, lane, hshowing, hevent⟩ :=
      mem_drawUser_group.mp ⟨hdraw, horigin⟩
    exact ⟨hview, u, phase, track, lane, hshowing, hm, hevent⟩

/-- An event of a group is drawn on a lane that shows its record. -/
theorem exists_lane_of_told (hgroups : job.groups.Distinct) {log : List Text} {d : Drawn}
    (hd : d ∈ (job.told log).map Prod.snd) (ho : d.origin = .group) :
    ∃ placed ∈ job.groups.placed, d.event.pid = placed.1 ∧ d.event.tid = some placed.2.tid ∧
      (job.told log).any placed.2.shownBy = true := by
  obtain ⟨-, u, phase, track, lane, hshowing, hm, hevent⟩ := exists_showing_of_told hd ho
  obtain ⟨htrack, hfind⟩ := Groups.mem_showing.mp hshowing
  obtain ⟨hgroup, hkey⟩ := Groups.key_of_find? hfind
  have hlane : lane ∈ job.groups.lanes := List.mem_of_find?_eq_some hfind
  refine ⟨(track.pid, lane), hgroups.mem_placed_of_track htrack hlane hgroup, ?_, ?_, ?_⟩
  · rw [hevent]
    rfl
  · rw [hevent]
    rfl
  · exact (any_shownBy_iff _ _).mpr ⟨u, d, hm, ho, hkey⟩

/-- A lane is shown when its group draws an event for the signal of the lane. -/
theorem any_shownBy_iff_isShown (hgroups : job.groups.Distinct) {log : List Text}
    {placed : ProcessId × Lane} (hp : placed ∈ job.groups.placed) :
    (job.told log).any placed.2.shownBy = true ↔
      Lane.IsShown job.groups ((job.told log).map Prod.snd) placed := by
  obtain ⟨pid, lane⟩ := placed
  obtain ⟨hlane, track, htrack, hgroup, hpid⟩ := hgroups.exists_track hp
  constructor
  · intro h
    obtain ⟨u, d, hm, ho, hkey⟩ := (any_shownBy_iff _ _).mp h
    obtain ⟨hu, hkept, hdraw⟩ := (mem_attributed_user _ _).mp hm
    obtain ⟨hview, tracepoint, phase, hdrawable, hphase, -⟩ := mem_drawUser_group.mp ⟨hdraw, ho⟩
    obtain ⟨first, hfirst⟩ := Groups.exists_showing htrack hlane hgroup hkey
    have hevent : ⟨.group, u.groupEvent phase track first⟩ ∈ job.drawUser u :=
      (mem_drawUser_group.mpr ⟨hview, tracepoint, phase, hdrawable, hphase, track, first, hfirst,
        rfl⟩).1
    have htold : (.user u, ⟨.group, u.groupEvent phase track first⟩) ∈ job.told log :=
      (mem_attributed_user _ _).mpr ⟨hu, hkept, hevent⟩
    obtain ⟨-, hfind⟩ := Groups.mem_showing.mp hfirst
    obtain ⟨hgroup', hkey'⟩ := Groups.key_of_find? hfind
    have hfirstLane : first ∈ job.groups.lanes := List.mem_of_find?_eq_some hfind
    refine ⟨(track.pid, first), hgroups.mem_placed_of_track htrack hfirstLane hgroup', ?_, ?_⟩
    · have hsame := hkey'.symm.trans hkey
      exact Prod.ext (hgroup'.trans hgroup.symm) hsame
    · exact ⟨_, List.mem_map.mpr ⟨_, htold, rfl⟩, rfl, rfl, rfl⟩
  · intro h
    obtain ⟨twin, htwin, hkey, d, hd, ho, -, htid⟩ := h
    obtain ⟨own, hown, -, htid', hshown⟩ := exists_lane_of_told hgroups hd ho
    have hsame : own.2 = twin.2 := by
      apply hgroups.lane_eq (Groups.mem_placed.mp hown).1 (Groups.mem_placed.mp htwin).1
      exact Option.some.inj (htid'.symm.trans htid)
    obtain ⟨u, d', hm, ho', hsighting⟩ := (any_shownBy_iff _ _).mp hshown
    refine (any_shownBy_iff _ _).mpr ⟨u, d', hm, ho', ?_⟩
    rw [hsighting, hsame]
    exact (Prod.mk.inj hkey).2

/-- Lanes are told apart by their tracks. -/
theorem tracks_nodup (hgroups : job.groups.Distinct) : (job.groups.placed.map Lane.track).Nodup := by
  have htids : (job.groups.placed.map fun placed => placed.2.tid).Nodup := by
    have hlanes : job.groups.placed.map (fun placed => placed.2.tid) =
        (job.groups.placed.map Prod.snd).map (·.tid) := by
      rw [List.map_map]
      rfl
    rw [hlanes, hgroups.placed_snd]
    exact hgroups.tids
  apply List.Nodup.of_map Prod.snd
  rw [List.map_map]
  exact htids

/-- The names of lanes in a document. -/
def laneNames (drawn : List Drawn) : List Drawn :=
  drawn.filter fun d => d.origin = .naming .group ∧ d.event.name = "thread_name".toList

theorem mem_groupNames_of_closing {p : Progress} {d : Drawn} (hd : d ∈ job.closing p)
    (ho : d.origin = .naming .group) : d.event ∈ job.groupNames p := by
  rw [mem_closing] at hd
  simp only [ho, Origin.naming.injEq, reduceCtorEq, false_and, and_false, or_false,
    false_or, true_and] at hd
  exact hd.2

theorem laneNames_closingTracks (log : List Text) : laneNames (job.closingTracks log) = [] := by
  apply List.filter_eq_nil_iff.mpr
  intro d hd hname
  obtain ⟨ho, hthread⟩ := of_decide_eq_true hname
  have he := mem_groupNames_of_closing hd ho
  rw [groupNames, Groups.sighted_nil, List.map_nil, List.append_nil] at he
  obtain ⟨track, -, htrack⟩ := List.mem_map.mp he
  have hprocess : d.event.name = "process_name".toList := by rw [← htrack]; rfl
  rw [hprocess] at hthread
  exact absurd hthread (by decide)

theorem laneNames_named (lanes : List (ProcessId × Lane)) :
    laneNames (lanes.map Lane.named) = lanes.map Lane.named := by
  apply List.filter_eq_self.mpr
  intro d hd
  obtain ⟨placed, -, rfl⟩ := List.mem_map.mp hd
  exact decide_eq_true ⟨rfl, rfl⟩

/-- The names of lanes are those of the lanes that are shown. -/
theorem laneNames_convert (hview : job.views.group = true) (hgroups : job.groups.Distinct)
    {log : List Text} (hpass : job.firstFault log = none) :
    laneNames (job.convert log).drawn =
      (job.groups.placed.filter fun placed =>
        Lane.IsShown job.groups ((job.told log).map Prod.snd) placed).map Lane.named := by
  have htold : laneNames ((job.told log).map Prod.snd) = [] := by
    apply List.filter_eq_nil_iff.mpr
    intro d hd hname
    rw [told, attributed_snd] at hd
    exact not_naming_of_mem_draws hd .group (of_decide_eq_true hname).1
  have hshown : job.shownLanes (job.told log) = job.groups.placed.filter fun placed =>
      Lane.IsShown job.groups ((job.told log).map Prod.snd) placed := by
    rw [shownLanes, if_pos hview]
    apply List.filter_congr
    intro placed hp
    rw [Bool.eq_iff_iff, any_shownBy_iff_isShown hgroups hp, decide_eq_true_iff]
  have hlanes := laneNames_named (job.shownLanes (job.told log))
  have hclosing := job.laneNames_closingTracks log
  unfold laneNames at htold hlanes hclosing ⊢
  rw [convert_told, if_pos hpass, List.filter_append, List.filter_append, htold, hclosing, hlanes,
    List.nil_append, List.nil_append, hshown]

/-- Only records are drawn on lanes. -/
theorem mem_told_of_group {log : List Text} {d : Drawn} (hd : d ∈ (job.convert log).drawn)
    (ho : d.origin = .group) : d ∈ (job.told log).map Prod.snd := by
  rw [told, attributed_snd]
  exact mem_draws_of_convert hd (by simp [ho]) (by simp [ho])

theorem isUsed_convert {log : List Text} (placed : ProcessId × Lane) :
    Lane.IsUsed (job.convert log).drawn placed ↔
      Lane.IsUsed ((job.told log).map Prod.snd) placed := by
  constructor
  · intro h
    obtain ⟨d, hd, ho, htrack⟩ := h
    exact ⟨d, mem_told_of_group hd ho, ho, htrack⟩
  · intro h
    obtain ⟨d, hd, hspec⟩ := h
    refine ⟨d, ?_, hspec⟩
    rw [convert_told]
    exact List.mem_append_left _ hd

theorem isShown_convert {log : List Text} (placed : ProcessId × Lane) :
    Lane.IsShown job.groups (job.convert log).drawn placed ↔
      Lane.IsShown job.groups ((job.told log).map Prod.snd) placed := by
  simp only [Lane.IsShown, isUsed_convert]

end

theorem groups_of_plan {settings : Settings} {options : Options} {job : Job}
    (hplan : Job.plan settings options = .ok job) (hview : job.views.group = true) :
    job.groups = .ofSettings settings := by
  obtain ⟨-, -, hjob⟩ := eq_of_plan hplan
  have hviews : (options.effectiveViews settings).group = true := by
    rw [hjob] at hview
    exact hview
  rw [hjob]
  exact if_pos hviews

/-- Every lane has a track of its own, and every event of a group is on one of them. A lane is named,
with its logical name, when its group draws an event for the signal of the lane. The event is on the
first lane for the signal, so in groups without a second one just the lanes that are drawn on are
named. -/
theorem group_lanes_named {path text : Text} {settings : Settings} {options : Options} {job : Job}
    {log : List Text} {finished : Finished} (hparse : Settings.parse path text = .ok settings)
    (hplan : Job.plan settings options = .ok job) (hview : job.views.group = true)
    (hok : (job.convert log).result = .ok finished) :
    let drawn := (job.convert log).drawn
    let lanes := job.groups.placed
    (lanes.map Prod.snd = (Groups.ofSettings settings).lanes ∧ (lanes.map Lane.track).Nodup) ∧
    (∀ d ∈ drawn, d.origin = .group →
      ∃ lane ∈ lanes, d.event.pid = lane.1 ∧ d.event.tid = some lane.2.tid) ∧
    laneNames drawn =
      (lanes.filter fun lane => Lane.IsShown job.groups drawn lane).map Lane.named ∧
    ((∀ group ∈ settings.enabledGroups,
        (group.lanes.map fun lane => (lane.process, lane.physical)).Nodup) →
      laneNames drawn = (lanes.filter fun lane => Lane.IsUsed drawn lane).map Lane.named) := by
  intro drawn lanes
  have hnames := Settings.groups_nodup_of_parse hparse
  have hofSettings := groups_of_plan hplan hview
  have hgroups : job.groups.Distinct := by
    rw [hofSettings]
    exact Groups.ofSettings_distinct hnames
  have hpass : job.firstFault log = none := by
    rw [← (job.run_fault log).1]
    exact (convert_drawn hok).1
  have hplaced : lanes.map Prod.snd = (Groups.ofSettings settings).lanes := by
    rw [← hofSettings]
    exact hgroups.placed_snd
  have hnamed : laneNames drawn =
      (lanes.filter fun lane => Lane.IsShown job.groups drawn lane).map Lane.named := by
    simp only [drawn, isShown_convert]
    exact laneNames_convert hview hgroups hpass
  refine ⟨⟨hplaced, tracks_nodup hgroups⟩, fun d hd ho => ?_, hnamed, fun hapart => ?_⟩
  · obtain ⟨placed, hp, hpid, htid, -⟩ := exists_lane_of_told hgroups (mem_told_of_group hd ho) ho
    exact ⟨placed, hp, hpid, htid⟩
  · have hkeys : (job.groups.lanes.map Lane.key).Nodup := by
      rw [hofSettings]
      exact Groups.keys_ofSettings hnames hapart
    rw [hnamed]
    congr 1
    apply List.filter_congr
    intro lane hl
    rw [decide_eq_decide]
    exact Lane.isShown_iff_isUsed hkeys hl

/-- Settings with a group of two lanes, the second for a signal of its own or not. -/
def laneSettings (physical : String) : Settings where
  ignoreRules := []
  userView := false
  groupView := ⟨true, [⟨"Chat".toList, true,
    [⟨"App".toList, "message".toList, "Talk".toList⟩,
      ⟨"App".toList, physical.toList, "Chatter".toList⟩]⟩]⟩
  cpuView := false

def laneText (physical : String) : Text :=
  "[[],[false],[true,[[\"Chat\",true,[[\"App\",\"message\",\"Talk\"],".toList ++
    "[\"App\",\"".toList ++ physical.toList ++ "\",\"Chatter\"]]]]],[false]]".toList

def laneJob (physical : String) : Job where
  settings := laneSettings physical
  views := ⟨false, true, false⟩
  processes := none
  clock := ⟨none⟩
  groups := .ofSettings (laneSettings physical)
  cores := 1
  periodMicros := 10000
  keep := false

theorem parse_laneText : ∀ physical ∈ ["message", "log"],
    Settings.parse [] (laneText physical) = .ok (laneSettings physical) := by
  have hread : ∀ physical ∈ ["message", "log"],
      (Settings.parse [] (laneText physical)).toOption = some (laneSettings physical) := by
    decide +kernel
  exact fun physical hm => toOption_eq_some_iff.mp (hread physical hm)

/-- Of two lanes for different signals, the one that is used has a name. -/
theorem group_lanes_named_apart :
    let job := laneJob "log"
    let drawn := (job.convert [userLine "App"]).drawn
    Settings.parse [] (laneText "log") = .ok (laneSettings "log") ∧
    Job.plan (laneSettings "log") Options.new = .ok job ∧ job.views.group = true ∧
    (∃ finished, (job.convert [userLine "App"]).result = .ok finished) ∧
    (∀ group ∈ (laneSettings "log").enabledGroups,
      (group.lanes.map fun lane => (lane.process, lane.physical)).Nodup) ∧
    laneNames drawn =
      (job.groups.placed.filter fun lane => Lane.IsUsed drawn lane).map Lane.named ∧
    (job.groups.placed.filter fun lane => Lane.IsUsed drawn lane).map Lane.track = [(-3, 0)] := by
  intro job drawn
  have hparse := parse_laneText "log" (by decide)
  have hplan : Job.plan (laneSettings "log") Options.new = .ok job := rfl
  obtain ⟨finished, hok⟩ : ∃ finished, (job.convert [userLine "App"]).result = .ok finished :=
    exists_ok_of_isOk (by decide +kernel)
  have hapart : ∀ group ∈ (laneSettings "log").enabledGroups,
      (group.lanes.map fun lane => (lane.process, lane.physical)).Nodup := by decide
  have hnamed := (group_lanes_named hparse hplan rfl hok).2.2.2 hapart
  exact ⟨hparse, hplan, rfl, ⟨finished, hok⟩, hapart, hnamed, by decide +kernel⟩

/-- A lane has a name when some event of a group is drawn on it, and not otherwise. -/
def GroupLanesNamed (job : Job) (log : List Text) : Prop :=
  let drawn := (job.convert log).drawn
  (job.convert log).result.isOk → ∀ lane ∈ job.groups.placed,
    (∃ d ∈ laneNames drawn, d.event.pid = lane.1 ∧ d.event.tid = some lane.2.tid) ↔
      Lane.IsUsed drawn lane

instance (job : Job) (log : List Text) : Decidable (job.GroupLanesNamed log) :=
  inferInstanceAs (Decidable (_ → _))

/-- A second lane for a signal is named with the first, which alone is drawn on. -/
theorem group_lane_named_unused :
    Settings.parse [] (laneText "message") = .ok (laneSettings "message") ∧
      Job.plan (laneSettings "message") Options.new = .ok (laneJob "message") ∧
      (laneJob "message").views.group = true ∧
      ¬GroupLanesNamed (laneJob "message") [userLine "App"] :=
  ⟨parse_laneText "message" (by decide), rfl, rfl, by decide +kernel⟩

end Job
end TraceReport
