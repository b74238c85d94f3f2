import TraceReport.Proofs.Conversion.GroupLanes
import TraceReport.Proofs.Conversion.Intervals
import TraceReport.Proofs.Conversion.Views
import TraceReport.Proofs.Conversion.Windows

namespace TraceReport

namespace Event

/-- What an element that names a track is about. -/
def track (e : Event) : Text × ProcessId × Option ThreadId := (e.name, e.pid, e.tid)

/-- The names of processes and of threads. -/
def names (processes : List (ProcessId × Text)) (threads : List (ProcessId × ThreadId × Text)) :
    List Event :=
  processes.map (fun (pid, label) => processName pid label) ++
    threads.map fun (pid, tid, label) => threadName pid tid label

section

variable {processes : List (ProcessId × Text)} {threads : List (ProcessId × ThreadId × Text)}

theorem pid_of_mem_names {e : Event} (h : e ∈ names processes threads) :
    (∃ label, (e.pid, label) ∈ processes) ∨ ∃ tid label, (e.pid, tid, label) ∈ threads := by
  rcases List.mem_append.mp h with hprocess | hthread
  · obtain ⟨⟨pid, label⟩, hm, rfl⟩ := List.mem_map.mp hprocess
    exact .inl ⟨label, hm⟩
  · obtain ⟨⟨pid, tid, label⟩, hm, rfl⟩ := List.mem_map.mp hthread
    exact .inr ⟨tid, label, hm⟩

/-- Nothing is named twice where no process and no thread is told of twice. -/
theorem names_nodup (hprocesses : (processes.map Prod.fst).Nodup)
    (hthreads : (threads.map fun thread => (thread.1, thread.2.1)).Nodup) :
    ((names processes threads).map track).Nodup := by
  have hsplit : (names processes threads).map track =
      (processes.map Prod.fst).map (fun pid => ("process_name".toList, pid, none)) ++
        (threads.map fun thread => (thread.1, thread.2.1)).map fun entry =>
          ("thread_name".toList, entry.1, some entry.2) := by
    rw [names, List.map_append, List.map_map, List.map_map, List.map_map, List.map_map]
    rfl
  rw [hsplit, List.nodup_append]
  refine ⟨hprocesses.map ?_, hthreads.map ?_, ?_⟩
  · intro a b hab
    exact (Prod.mk.inj (Prod.mk.inj hab).2).1
  · intro a b hab
    obtain ⟨hpid, htid⟩ := Prod.mk.inj (Prod.mk.inj hab).2
    exact Prod.ext hpid (Option.some.inj htid)
  · intro a ha b hb hab
    obtain ⟨pid, -, rfl⟩ := List.mem_map.mp ha
    obtain ⟨entry, -, rfl⟩ := List.mem_map.mp hb
    exact Option.some_ne_none _ (Prod.mk.inj (Prod.mk.inj hab).2).2.symm

/-- Names of tracks above a bound, and names of tracks that are not. -/
theorem nodup_append {above below : List Event} (habove : (above.map track).Nodup)
    (hbelow : (below.map track).Nodup) (bound : ProcessId) (hhigh : ∀ e ∈ above, bound < e.pid)
    (hlow : ∀ e ∈ below, e.pid ≤ bound) : ((above ++ below).map track).Nodup := by
  rw [List.map_append, List.nodup_append]
  refine ⟨habove, hbelow, ?_⟩
  intro a ha b hb hab
  obtain ⟨e, he, rfl⟩ := List.mem_map.mp ha
  obtain ⟨other, hother, rfl⟩ := List.mem_map.mp hb
  have hpid : e.pid = other.pid := (Prod.mk.inj (Prod.mk.inj hab).2).1
  have hle : e.pid ≤ bound := hpid ▸ hlow other hother
  exact absurd (hhigh e he) (Int.not_lt.mpr hle)

/-- Names that are given only where some view is on. -/
theorem nodup_ite {on : Prop} [Decidable on] {names : List Event}
    (h : on → (names.map track).Nodup) : ((if on then names else []).map track).Nodup := by
  split_ifs with hon
  · exact h hon
  · exact List.nodup_nil

end

end Event

namespace TrackNames

/-- A thread is labelled once. -/
theorem Ordered.threadLabels_nodup {names : TrackNames} (h : names.Ordered) :
    (names.threadLabels.map fun entry => entry.2.1).Nodup := by
  apply List.pairwise_map.mpr
  exact h.threadLabels_pairwise.imp Int.ne_of_lt

end TrackNames

namespace Job

section

variable {job : Job} {p : Progress}

theorem userNames_nodup (h : p.names.Ordered) : ((userNames p).map Event.track).Nodup := by
  refine Event.names_nodup h.processes.nodup_keys ?_
  apply List.Nodup.of_map Prod.snd
  rw [List.map_map]
  exact h.threadLabels_nodup

theorem coreNames_nodup (p : Progress) : ((coreNames p).map Event.track).Nodup := by
  have hnames : coreNames p = Event.names [(corePid, "[CUSTOM] CPU usages/core".toList)]
      ((List.range p.load.cores).map (fun core => (corePid, coreLane core, coreLabel core)) ++
        [(corePid, coreLane p.load.cores, totalLabel)]) := by
    rw [coreNames, Event.names, List.map_append, List.map_map]
    rfl
  have hlanes : ((List.range p.load.cores).map (fun core =>
        (corePid, coreLane core, coreLabel core)) ++
      [(corePid, coreLane p.load.cores, totalLabel)]).map (fun lane => (lane.1, lane.2.1)) =
        (List.range (p.load.cores + 1)).map fun core => (corePid, coreLane core) := by
    rw [List.range_succ, List.map_append, List.map_append, List.map_map]
    rfl
  rw [hnames]
  refine Event.names_nodup (List.nodup_singleton _) ?_
  rw [hlanes]
  refine List.nodup_range.map ?_
  intro a b hab
  exact Int.ofNat_inj.mp (Prod.mk.inj hab).2

theorem scheduleNames_nodup (h : p.names.Ordered) :
    ((scheduleNames p).map Event.track).Nodup := by
  have hnames : scheduleNames p = Event.names [(schedulePid, "[CUSTOM] CPU usages/ps".toList)]
      (p.names.threadLabels.map fun (_, tid, label) => (schedulePid, tid, label)) := by
    rw [scheduleNames, Event.names, List.map_map]
    rfl
  rw [hnames]
  refine Event.names_nodup (List.nodup_singleton _) ?_
  apply List.Nodup.of_map Prod.snd
  rw [List.map_map, List.map_map]
  exact h.threadLabels_nodup

theorem groupNames_nodup (hgroups : job.groups.Distinct)
    (hpids : (job.groups.tracks.map (·.pid)).Nodup) :
    ((job.groupNames p).map Event.track).Nodup := by
  have hnames : job.groupNames p = Event.names
      (job.groups.tracks.map fun track => (track.pid, "[CUSTOM] ".toList ++ track.name))
      ((job.groups.sighted p.seen).map fun placed =>
        (placed.1, placed.2.tid, placed.2.logical)) := by
    rw [groupNames, Event.names, List.map_map, List.map_map]
    rfl
  have hlanes : ((job.groups.sighted p.seen).map Lane.track).Nodup := by
    rw [Groups.sighted_eq_filter]
    exact (List.filter_sublist.map _).nodup (tracks_nodup hgroups)
  rw [hnames]
  refine Event.names_nodup ?_ ?_
  · rw [List.map_map]
    exact hpids
  · rw [List.map_map]
    exact hlanes

end

section

variable {job : Job} {p : Progress} {e : Event}

/-- The user view names the processes of records, and threads under the processes of records. -/
theorem userNames_pid {records : List Record} (h : e ∈ userNames (job.after records)) :
    ∃ record ∈ records, record.header.pid = e.pid := by
  have hnote : ∃ n ∈ (records.filter job.notes).map fun record => record.header.note,
      n.pid = e.pid := by
    rw [userNames, after_names] at h
    rcases Event.pid_of_mem_names h with ⟨label, hprocess⟩ | ⟨tid, label, hthread⟩
    · have hlast := (TrackNames.mem_processes_iff _ _).mp ⟨label, hprocess⟩
      obtain ⟨n, hn⟩ := Option.isSome_iff_exists.mp hlast
      obtain ⟨hmem, hnames⟩ := Note.of_last_eq_some hn
      simp only [Bool.and_eq_true, beq_iff_eq] at hnames
      exact ⟨n, hmem, hnames.2⟩
    · obtain ⟨n, hn, hpid⟩ := (TrackNames.mem_threadLabels_iff _ _ _).mp ⟨label, hthread⟩
      exact ⟨n, (Note.of_last_eq_some hn).1, hpid⟩
  obtain ⟨n, hn, hpid⟩ := hnote
  obtain ⟨record, hrecord, rfl⟩ := List.mem_map.mp hn
  exact ⟨record, (List.mem_filter.mp hrecord).1, hpid⟩

theorem groupNames_pid (h : e ∈ job.groupNames p) :
    ∃ track ∈ job.groups.tracks, track.pid = e.pid := by
  rcases List.mem_append.mp h with htrack | hlane
  · obtain ⟨track, ht, rfl⟩ := List.mem_map.mp htrack
    exact ⟨track, ht, rfl⟩
  · obtain ⟨⟨pid, lane⟩, hm, rfl⟩ := List.mem_map.mp hlane
    rw [Groups.sighted_eq_filter] at hm
    obtain ⟨-, hpid⟩ := Groups.mem_placed.mp (List.mem_filter.mp hm).1
    obtain ⟨track, hfound, htrack⟩ := Option.map_eq_some_iff.mp hpid
    exact ⟨track, List.mem_of_find?_eq_some hfound, htrack⟩

end

end Job

namespace Groups

variable {settings : Settings}

/-- The track of the enabled group of an index counts down from the first. -/
theorem mem_tracks_ofSettings {track : Track} :
    track ∈ (ofSettings settings).tracks ↔
      ∃ i group, settings.enabledGroups[i]? = some group ∧
        track = ⟨group.name, firstPid - (i : Nat)⟩ := by
  rw [ofSettings, List.mem_map]
  constructor
  · rintro ⟨⟨group, i⟩, hm, rfl⟩
    exact ⟨i, group, List.mem_zipIdx_iff_getElem?.mp hm, rfl⟩
  · rintro ⟨i, group, hget, rfl⟩
    exact ⟨(group, i), List.mem_zipIdx_iff_getElem?.mpr hget, rfl⟩

end Groups

namespace Drawn

/-- The names of tracks in a document. -/
def names (drawn : List Drawn) : List Event :=
  (events drawn).filter fun e => e.phase = .naming

theorem names_append (drawn more : List Drawn) :
    names (drawn ++ more) = names drawn ++ names more := by
  rw [names, events, List.map_append, List.filter_append]
  rfl

theorem names_of (origin : Origin) {list : List Event} (h : ∀ e ∈ list, e.phase = .naming) :
    names (Drawn.of origin list) = list := by
  rw [names, events_of, List.filter_eq_self]
  intro e he
  exact decide_eq_true (h e he)

end Drawn

namespace Job

section

variable {job : Job}

/-- The names at the end of a document, view by view. -/
theorem names_closing (p : Progress) :
    Drawn.names (job.closing p) =
      (if job.views.user then userNames p else []) ++
        ((if job.views.cpu then coreNames p ++ scheduleNames p else []) ++
          if job.views.group then job.groupNames p else []) := by
  have huser := Drawn.names_of (.naming .user) fun e (he : e ∈ userNames p) => userNames_phase he
  have hcore := Drawn.names_of (.naming .cpu) fun e (he : e ∈ coreNames p) => coreNames_phase he
  have hschedule :=
    Drawn.names_of (.naming .cpu) fun e (he : e ∈ scheduleNames p) => scheduleNames_phase he
  have hgroup :=
    Drawn.names_of (.naming .group) fun e (he : e ∈ job.groupNames p) => groupNames_phase he
  have hreference : Drawn.names (Drawn.of .reference p.load.referenceEvents) = [] := by
    rw [Drawn.names, Drawn.events_of, List.filter_eq_nil_iff]
    intro e he hphase
    rw [(mem_counters he).1] at hphase
    exact absurd (of_decide_eq_true hphase) (by decide)
  have hnone : Drawn.names [] = [] := rfl
  unfold closing
  rw [Drawn.names_append, Drawn.names_append, List.append_assoc]
  split_ifs <;>
    simp only [Drawn.names_append, huser, hcore, hschedule, hgroup, hreference, hnone,
      List.append_nil]

theorem names_convert {log : List Text} {finished : Finished}
    (hok : (job.convert log).result = .ok finished) :
    Drawn.names (job.convert log).drawn =
      Drawn.names (job.closing (job.after (Log.records job.clock log))) := by
  have hdraws : Drawn.names (job.draws job.start (Log.records job.clock log)) = [] := by
    rw [Drawn.names, List.filter_eq_nil_iff]
    intro e he hphase
    obtain ⟨d, hd, rfl⟩ := List.mem_map.mp he
    exact draws_phase_ne_naming hd (of_decide_eq_true hphase)
  rw [(convert_drawn hok).2, Drawn.names_append, hdraws, List.nil_append]

theorem cpuNames_pid {p : Progress} {e : Event} (h : e ∈ coreNames p ++ scheduleNames p) :
    e.pid = corePid ∨ e.pid = schedulePid := by
  rcases List.mem_append.mp h with hcore | hschedule
  · exact .inl (coreNames_pid hcore)
  · exact .inr (scheduleNames_pid hschedule)

theorem cpuNames_nodup {p : Progress} (h : p.names.Ordered) :
    ((coreNames p ++ scheduleNames p).map Event.track).Nodup := by
  apply Event.nodup_append (coreNames_nodup p) (scheduleNames_nodup h) schedulePid
  · intro e he
    rw [coreNames_pid he]
    decide
  · intro e he
    rw [scheduleNames_pid he]

section

variable {settings : Settings} (hown : job.groups = .ofSettings settings)
include hown

theorem groupNames_pid_le {p : Progress} {e : Event} (h : e ∈ job.groupNames p) :
    e.pid ≤ Groups.firstPid := by
  obtain ⟨track, htrack, hpid⟩ := groupNames_pid h
  rw [hown] at htrack
  obtain ⟨i, group, -, rfl⟩ := Groups.mem_tracks_ofSettings.mp htrack
  rw [← hpid]
  exact Int.sub_le_self _ (Int.natCast_nonneg i)

theorem groupNames_nodup_of_settings (hgroups : (Groups.ofSettings settings).Distinct)
    (p : Progress) : ((job.groupNames p).map Event.track).Nodup := by
  apply groupNames_nodup
  · rwa [hown]
  · rw [hown]
    exact Groups.pids_nodup

end

/-- The views name their tracks one below the other: users from zero on, cores, tasks and then
groups. -/
theorem names_nodup {settings : Settings} (hgroups : (Groups.ofSettings settings).Distinct)
    (hview : job.views.group = true → job.groups = .ofSettings settings) {records : List Record}
    (hpids : ∀ record ∈ records, 0 ≤ record.header.pid) :
    ((Drawn.names (job.closing (job.after records))).map Event.track).Nodup := by
  have hordered : (job.after records).names.Ordered := by
    rw [after_names]
    exact TrackNames.after_ordered _
  rw [names_closing]
  refine Event.nodup_append (Event.nodup_ite fun _ => userNames_nodup hordered) ?_ corePid ?_ ?_
  · refine Event.nodup_append (Event.nodup_ite fun _ => cpuNames_nodup hordered)
      (Event.nodup_ite fun hon => groupNames_nodup_of_settings (hview hon) hgroups _)
      Groups.firstPid ?_ ?_
    · intro e he
      rcases cpuNames_pid (List.mem_ite_nil_right.mp he).2 with hpid | hpid
      · rw [hpid]
        decide
      · rw [hpid]
        decide
    · intro e he
      obtain ⟨hon, hname⟩ := List.mem_ite_nil_right.mp he
      exact groupNames_pid_le (hview hon) hname
  · intro e he
    obtain ⟨record, hrecord, hpid⟩ := userNames_pid (List.mem_ite_nil_right.mp he).2
    rw [← hpid]
    exact Int.lt_of_lt_of_le (by decide) (hpids record hrecord)
  · intro e he
    rcases List.mem_append.mp he with hcpu | hgroup
    · rcases cpuNames_pid (List.mem_ite_nil_right.mp hcpu).2 with hpid | hpid
      · rw [hpid]
      · rw [hpid]
        decide
    · obtain ⟨hon, hname⟩ := List.mem_ite_nil_right.mp hgroup
      exact Int.le_trans (groupNames_pid_le (hview hon) hname) (by decide)

end

end Job

/-- A part of the display. -/
inductive Panel
  | threads
  | cores
  | tasks
  /-- the enabled group of an index -/
  | group (i : Nat)
  deriving DecidableEq, Repr

namespace Panel

/-- The process ids under which a panel shows what belongs to it. -/
def Has : Panel → ProcessId → Prop
  | .threads, pid => 0 ≤ pid
  | .cores, pid => pid = corePid
  | .tasks, pid => pid = schedulePid
  | .group i, pid => pid = Groups.firstPid - (i : Nat)

/-- Panels by where their process ids stand, that of the users at zero. -/
def rank : Panel → Int
  | .threads => 0
  | .cores => -1
  | .tasks => -2
  | .group i => -3 - (i : Nat)

theorem rank_injective : Function.Injective rank := by
  intro a b hab
  cases a <;> cases b <;> simp only [rank] at hab
  case group.group i j => exact congrArg Panel.group (by omega)
  all_goals first | rfl | omega

theorem rank_of_has {panel : Panel} {pid : ProcessId} (h : panel.Has pid) :
    panel.rank = min (pid : Int) 0 := by
  cases panel with
  | threads => exact (min_eq_right h).symm
  | cores =>
    have hpid : pid = (-1 : Int) := h
    rw [hpid]
    rfl
  | tasks =>
    have hpid : pid = (-2 : Int) := h
    rw [hpid]
    rfl
  | group i =>
    have hpid : pid = (-3 : Int) - i := h
    rw [hpid, rank]
    omega

/-- Panels share no process id. -/
theorem Has.unique {a b : Panel} {pid : ProcessId} (ha : a.Has pid) (hb : b.Has pid) : a = b := by
  apply rank_injective
  rw [rank_of_has ha, rank_of_has hb]

end Panel

/-- Whether an event shows on a panel. One of a group is on a lane of the group. -/
def Drawn.IsOn (settings : Settings) (d : Drawn) : Panel → Prop
  | .threads => d.origin = .user
  | .cores => d.origin.isCounter = true
  | .tasks => d.origin = .schedule
  | .group i => d.origin = .group ∧
      ∃ group lane, settings.enabledGroups[i]? = some group ∧
        lane ∈ (Groups.ofSettings settings).lanes ∧ lane.group = group.name ∧
        d.event.tid = some lane.tid

namespace Job

section

variable {job : Job} {log : List Text} {finished : Finished}

theorem user_pid (hok : (job.convert log).result = .ok finished) {d : Drawn}
    (hd : d ∈ (job.convert log).drawn) (ho : d.origin = .user) :
    ∃ record ∈ Log.records job.clock log, record.header.pid = d.event.pid := by
  rw [(convert_drawn hok).2] at hd
  rcases List.mem_append.mp hd with hdraws | hclosing
  · obtain ⟨u, hu, hpid, -⟩ := mem_draws_user hdraws ho
    exact ⟨.user u, hu, hpid.symm⟩
  · exact absurd ho (not_user_of_mem_closing hclosing)

theorem counter_pid (hok : (job.convert log).result = .ok finished) {d : Drawn}
    (hd : d ∈ (job.convert log).drawn) (ho : d.origin.isCounter = true) :
    d.event.pid = corePid := by
  rw [(convert_drawn hok).2] at hd
  rcases List.mem_append.mp hd with hdraws | hclosing
  · have hmem : d ∈ Drawn.counters (job.draws job.start (Log.records job.clock log)) :=
      List.mem_filter.mpr ⟨hdraws, ho⟩
    rw [counters_draws] at hmem
    obtain ⟨w, -, he⟩ := List.mem_flatMap.mp (Drawn.mem_of.mp hmem).2
    exact pid_of_mem_counters he
  · rcases mem_closing.mp hclosing with ⟨-, hname, -⟩ | ⟨-, ⟨hname, -⟩ | ⟨-, he⟩⟩ | ⟨-, hname, -⟩
    · rw [hname] at ho
      cases ho
    · rw [hname] at ho
      cases ho
    · exact pid_of_mem_counters he
    · rw [hname] at ho
      cases ho

theorem schedule_pid (hok : (job.convert log).result = .ok finished) {d : Drawn}
    (hd : d ∈ (job.convert log).drawn) (ho : d.origin = .schedule) :
    d.event.pid = schedulePid := by
  rw [(convert_drawn hok).2] at hd
  rcases List.mem_append.mp hd with hdraws | hclosing
  · obtain ⟨s, -, he⟩ := exists_switch_of_mem_draws hdraws ho
    rcases List.mem_append.mp he with hended | hbegun
    · obtain ⟨tid, -, -, htask⟩ := mem_scheduleEvents.mp hended
      rw [htask]
      rfl
    · obtain ⟨tid, -, -, htask⟩ := mem_scheduleEvents.mp hbegun
      rw [htask]
      rfl
  · exact absurd hclosing (not_mem_closing (by simp [ho]) (by simp [ho]))

/-- An event of a group is on a lane of an enabled group, under the process id of its index. -/
theorem exists_panel_of_group {settings : Settings}
    (hview : job.views.group = true → job.groups = .ofSettings settings) {d : Drawn}
    (hd : d ∈ (job.convert log).drawn) (ho : d.origin = .group) :
    ∃ i, d.IsOn settings (.group i) ∧ (Panel.group i).Has d.event.pid := by
  obtain ⟨hon, u, phase, track, lane, hshowing, -, hevent⟩ :=
    exists_showing_of_told (mem_told_of_group hd ho) ho
  rw [hview hon] at hshowing
  obtain ⟨htrack, hfind⟩ := Groups.mem_showing.mp hshowing
  obtain ⟨hgroup, -⟩ := Groups.key_of_find? hfind
  obtain ⟨i, group, hget, htrackEq⟩ := Groups.mem_tracks_ofSettings.mp htrack
  have hname : lane.group = group.name := by rw [hgroup, htrackEq]
  have hpid : d.event.pid = track.pid := by rw [hevent]; rfl
  have htid : d.event.tid = some lane.tid := by rw [hevent]; rfl
  refine ⟨i, ⟨ho, group, lane, hget, List.mem_of_find?_eq_some hfind, hname, htid⟩, ?_⟩
  rw [hpid, htrackEq]
  rfl

/-- All that a record or a window draws is on some panel. -/
theorem exists_panel_of_timed {settings : Settings}
    (hview : job.views.group = true → job.groups = .ofSettings settings)
    (hok : (job.convert log).result = .ok finished) {d : Drawn}
    (hd : d ∈ Drawn.timed (job.convert log).drawn) : ∃ panel, d.IsOn settings panel := by
  obtain ⟨hdrawn, hphase⟩ := List.mem_filter.mp hd
  have hnaming := (convert_allows hok hdrawn).naming
  cases ho : d.origin with
  | user => exact ⟨.threads, ho⟩
  | group =>
    obtain ⟨i, hon, -⟩ := exists_panel_of_group hview hdrawn ho
    exact ⟨.group i, hon⟩
  | schedule => exact ⟨.tasks, ho⟩
  | usage => exact ⟨.cores, by rw [Drawn.IsOn, ho]; rfl⟩
  | reference => exact ⟨.cores, by rw [Drawn.IsOn, ho]; rfl⟩
  | naming view =>
    rw [ho] at hnaming
    exact absurd (hnaming.mpr rfl) (of_decide_eq_true hphase)

/-- What is on a panel is under a process id of the panel. -/
theorem has_pid_of_isOn {settings : Settings}
    (hgroups : (Groups.ofSettings settings).Distinct)
    (hview : job.views.group = true → job.groups = .ofSettings settings)
    (hok : (job.convert log).result = .ok finished)
    (hpids : ∀ record ∈ Log.records job.clock log, 0 ≤ record.header.pid) {d : Drawn}
    (hd : d ∈ (job.convert log).drawn) {panel : Panel} (hon : d.IsOn settings panel) :
    panel.Has d.event.pid := by
  cases panel with
  | threads =>
    obtain ⟨record, hrecord, hpid⟩ := user_pid hok hd hon
    rw [← hpid]
    exact hpids record hrecord
  | cores => exact counter_pid hok hd hon
  | tasks => exact schedule_pid hok hd hon
  | group i =>
    obtain ⟨ho, group, lane, hget, hlane, hname, htid⟩ := hon
    obtain ⟨j, ⟨-, group', lane', hget', hlane', hname', htid'⟩, hhas⟩ :=
      exists_panel_of_group hview hd ho
    have hsame : lane = lane' := by
      apply hgroups.lane_eq hlane hlane'
      exact Option.some.inj (htid.symm.trans htid')
    have hindex : i = j := by
      have hnames : (settings.enabledGroups.map (·.name)).Nodup := by
        rw [← Groups.names_ofSettings]
        exact hgroups.names
      have hfirst : (settings.enabledGroups.map (·.name))[i]? = some lane.group := by
        rw [List.getElem?_map, hget, hname]
        rfl
      have hsecond : (settings.enabledGroups.map (·.name))[j]? = some lane.group := by
        rw [List.getElem?_map, hget', hsame, hname']
        rfl
      have hlt := (List.getElem?_eq_some_iff.mp hfirst).1
      exact (List.getElem?_inj hlt hnames).mp (hfirst.trans hsecond.symm)
    rw [hindex]
    exact hhas

end

/-- No track is named twice, and no two panels share a process. Of a log whose process ids are not
negative, users show under their own ids, cores and tasks under one each, and every enabled group
under one that goes by its index. -/
theorem tracks_apart {path text : Text} {settings : Settings} {options : Options} {job : Job}
    {log : List Text} {finished : Finished} (hparse : Settings.parse path text = .ok settings)
    (hplan : Job.plan settings options = .ok job) (hok : (job.convert log).result = .ok finished)
    (hpids : ∀ record ∈ Log.records job.clock log, 0 ≤ record.header.pid) :
    let drawn := (job.convert log).drawn
    ((Drawn.names drawn).map Event.track).Nodup ∧
    (∀ d ∈ Drawn.timed drawn, ∃ panel, d.IsOn settings panel) ∧
    (∀ d ∈ drawn, ∀ panel, d.IsOn settings panel → panel.Has d.event.pid) ∧
    ∀ d ∈ drawn, ∀ other ∈ drawn, ∀ panel elsewhere, d.IsOn settings panel →
      other.IsOn settings elsewhere → panel ≠ elsewhere → d.event.pid ≠ other.event.pid := by
  intro drawn
  have hgroups := Groups.ofSettings_distinct (Settings.groups_nodup_of_parse hparse)
  have hview : job.views.group = true → job.groups = .ofSettings settings := groups_of_plan hplan
  have hhas : ∀ d ∈ drawn, ∀ panel, d.IsOn settings panel → panel.Has d.event.pid := by
    intro d hd panel hon
    exact has_pid_of_isOn hgroups hview hok hpids hd hon
  refine ⟨?_, ?_, hhas, ?_⟩
  · rw [show drawn = (job.convert log).drawn from rfl, names_convert hok]
    exact names_nodup hgroups hview hpids
  · intro d hd
    exact exists_panel_of_timed hview hok hd
  · intro d hd other hother panel elsewhere hon helsewhere hne hsame
    apply hne
    have hfirst := hhas d hd panel hon
    rw [hsame] at hfirst
    exact hfirst.unique (hhas other hother elsewhere helsewhere)

def allViewsText : Text :=
  "[[],[true],[true,[[\"Chat\",true,[[\"App\",\"message\",\"Talk\"]]]]],[true]]".toList

/-- A message, which a group shows as well, and two switches more than a period apart. -/
theorem tracks_apart_all_views :
    let log := [userLine "App", switchLine,
      taskLine "[10.020100000]" "0" "swapper/0" "0" "App" "101"]
    let drawn := (allViewsJob.convert log).drawn
    Settings.parse [] allViewsText = .ok allViews ∧
    Job.plan allViews Options.new = .ok allViewsJob ∧
    (∃ finished, (allViewsJob.convert log).result = .ok finished) ∧
    (∀ record ∈ Log.records allViewsJob.clock log, 0 ≤ record.header.pid) ∧
    (Drawn.timed drawn).map (fun d => d.event.pid) = [100, -3, -2, -2, -1, -1, -1, -1] ∧
    (Drawn.names drawn).length = 10 ∧ ((Drawn.names drawn).map Event.track).Nodup := by
  intro log drawn
  have hparse : Settings.parse [] allViewsText = .ok allViews := by
    apply toOption_eq_some_iff.mp
    decide +kernel
  have hplan : Job.plan allViews Options.new = .ok allViewsJob := rfl
  obtain ⟨hread, hpids, htimed, hcount⟩ : (allViewsJob.convert log).result.isOk = true ∧
      (∀ record ∈ Log.records allViewsJob.clock log, 0 ≤ record.header.pid) ∧
      (Drawn.timed drawn).map (fun d => d.event.pid) = [100, -3, -2, -2, -1, -1, -1, -1] ∧
      (Drawn.names drawn).length = 10 := by decide +kernel
  obtain ⟨finished, hok⟩ := exists_ok_of_isOk hread
  obtain ⟨hnodup, -⟩ := tracks_apart hparse hplan hok hpids
  exact ⟨hparse, hplan, ⟨finished, hok⟩, hpids, htimed, hcount, hnodup⟩

end Job
end TraceReport
