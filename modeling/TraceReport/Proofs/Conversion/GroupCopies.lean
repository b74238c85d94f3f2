import TraceReport.Proofs.Conversion.GroupLanes
import TraceReport.Proofs.Conversion.Phases

namespace TraceReport

/-- The copy of an event on a lane of a group. -/
def Event.onGroup (e : Event) (pid : ProcessId) (tid : ThreadId) : Event :=
  { e with category := "group".toList, pid, tid := some tid }

/-- The types of user records that groups do not show. -/
def Tracepoint.unshared : List Text := ["log".toList, "marker".toList]

namespace Tracepoint

/-- Views differ in logs and markers alone. -/
theorem onGroupView_eq (t : Tracepoint) :
    t.onGroupView = if t.name.toList ∈ unshared then .nothing else t.onUserView := by
  cases t <;> decide

theorem name_of_find? {dialect : Dialect} {name : Text} {t : Tracepoint}
    (h : find? dialect name = some t) : t.name.toList = name := by
  have hfound := List.find?_some h
  exact beq_iff_eq.mp (Bool.and_eq_true_iff.mp hfound).1

/-- Only a marker turns into more than one event. -/
theorem object_shared (t : Tracepoint) (h : t.onUserView = .object) :
    t.name.toList ∈ unshared := by
  cases t <;> first | decide | exact absurd h (by decide)

end Tracepoint

namespace UserRecord

variable {record : UserRecord} {tracepoint : Tracepoint} {phase : Phase}

/-- A record that is neither a log nor a marker has at most one event on the user view. Its event
on a group is a copy of that. -/
theorem userEvents_of_event (hview : tracepoint.onUserView = .event phase)
    (hshared : tracepoint.name.toList ∉ Tracepoint.unshared) :
    ∃ e, record.userEvents tracepoint = [e] ∧ e.name = record.signal ∧
      ∀ track lane, record.groupEvent phase track lane = e.onGroup track.pid lane.tid := by
  cases record with
  | plain s =>
    refine ⟨s.event phase, ?_, rfl, fun track lane => rfl⟩
    simp only [userEvents, hview]
  | structured b =>
    have hlog : tracepoint ≠ .log := by
      rintro rfl
      exact hshared (by decide)
    refine ⟨{ b.event phase b.name with arguments := some (UserRecord.structured b).arguments },
      ?_, rfl, fun track lane => rfl⟩
    simp only [userEvents, hview, if_neg hlog]

end UserRecord

/-- How the events of a record on groups follow from its events on the user view. Nothing comes from
nothing, and groups show neither logs nor markers. Of anything else they have copies. -/
structure Settings.Echoed (settings : Settings) (u : UserRecord) (own copies : List Event) :
    Prop where
  absent : own = [] → copies = []
  unshared : u.header.event ∈ Tracepoint.unshared → copies = []
  copied : own ≠ [] → u.header.event ∉ Tracepoint.unshared → ∃ e, own = [e] ∧
    copies = (settings.echoes u.header.process e.name).map fun (pid, tid) => e.onGroup pid tid

theorem Settings.echoed_nil (settings : Settings) (u : UserRecord) : settings.Echoed u [] [] :=
  ⟨fun _ => rfl, fun _ => rfl, fun h => absurd rfl h⟩

theorem UserRecord.echoed {settings : Settings} {u : UserRecord} {tracepoint : Tracepoint}
    (hnames : (settings.groupView.groups.map (·.name)).Nodup)
    (hname : tracepoint.name.toList = u.header.event) :
    settings.Echoed u (u.userEvents tracepoint)
      (u.groupEvents (Groups.ofSettings settings) tracepoint) := by
  have hview := tracepoint.onGroupView_eq
  by_cases hunshared : tracepoint.name.toList ∈ Tracepoint.unshared
  · rw [if_pos hunshared] at hview
    have hnone : u.groupEvents (Groups.ofSettings settings) tracepoint = [] := by
      simp only [groupEvents, hview]
    rw [hnone]
    exact ⟨fun _ => rfl, fun _ => rfl, fun _ hshared => absurd (hname ▸ hunshared) hshared⟩
  · rw [if_neg hunshared] at hview
    cases hdrawing : tracepoint.onUserView with
    | nothing =>
      have hown : u.userEvents tracepoint = [] := by
        cases u <;> simp only [userEvents, hdrawing]
      have hnone : u.groupEvents (Groups.ofSettings settings) tracepoint = [] := by
        simp only [groupEvents, hview, hdrawing]
      rw [hown, hnone]
      exact settings.echoed_nil u
    | object => exact absurd (tracepoint.object_shared hdrawing) hunshared
    | event phase =>
      obtain ⟨e, hown, hsignal, hcopy⟩ := u.userEvents_of_event hdrawing hunshared
      have hcopies : u.groupEvents (Groups.ofSettings settings) tracepoint =
          (settings.echoes u.header.process e.name).map fun (pid, tid) => e.onGroup pid tid := by
        simp only [groupEvents, hview, hdrawing, hcopy]
        rw [hsignal, ← Groups.showing_ofSettings hnames, List.map_map]
        rfl
      rw [hown, hcopies]
      refine ⟨fun h => absurd h (List.cons_ne_nil e []), fun h => ?_, fun _ _ => ⟨e, rfl, rfl⟩⟩
      exact absurd (hname ▸ h) hunshared

namespace Job

section

variable {settings : Settings} {job : Job}

/-- A user record draws its events on its own thread, and right after them those on groups. -/
theorem stepUser_echoed (huser : job.views.user = true) (hgroup : job.views.group = true)
    (hgroups : job.groups = .ofSettings settings)
    (hnames : (settings.groupView.groups.map (·.name)).Nodup) (p : Progress) (u : UserRecord) :
    ∃ own copies, (job.stepUser p u).drawn = Drawn.of .user own ++ Drawn.of .group copies ∧
      settings.Echoed u own copies := by
  rw [stepUser_drawn]
  split_ifs
  · exact ⟨[], [], rfl, settings.echoed_nil u⟩
  · rw [drawUser]
    cases hdrawable : job.drawable? u with
    | none => exact ⟨[], [], rfl, settings.echoed_nil u⟩
    | some tracepoint =>
      have hfound : Tracepoint.find? u.dialect u.header.event = some tracepoint := by
        unfold drawable? at hdrawable
        split_ifs at hdrawable
        exact hdrawable
      refine ⟨u.userEvents tracepoint, u.groupEvents (.ofSettings settings) tracepoint, ?_,
        UserRecord.echoed hnames (Tracepoint.name_of_find? hfound)⟩
      simp only [huser, hgroup, if_true, hgroups]

theorem draws_split (job : Job) (p : Progress) (before : List Record) (record : Record)
    (rest : List Record) :
    let met := before.foldl (fun p r => (job.stepRecord p r).progress) p
    job.draws p (before ++ record :: rest) =
      job.draws p before ++ (job.stepRecord met record).drawn ++
        job.draws (job.stepRecord met record).progress rest := by
  induction before generalizing p with
  | nil => rfl
  | cons first more ih =>
    intro met
    rw [List.cons_append, draws, ih, draws, List.append_assoc, List.append_assoc,
      List.append_assoc]
    rfl

end

/-- Events on groups are copies. What a user record draws stands together: first its events on the
user view, and after a single one its copies, one for every enabled group that has a lane for it.
No other record draws on groups. -/
theorem group_events_copy {path text : Text} {settings : Settings} {options : Options} {job : Job}
    {log : List Text} {finished : Finished} (hparse : Settings.parse path text = .ok settings)
    (hplan : Job.plan settings options = .ok job) (huser : job.views.user = true)
    (hgroup : job.views.group = true) (hok : (job.convert log).result = .ok finished) :
    let records := Log.records job.clock log
    let drawn := (job.convert log).drawn
    (∀ before u rest, records = before ++ .user u :: rest →
      ∃ own copies,
        (job.stepUser (job.after before) u).drawn =
          Drawn.of .user own ++ Drawn.of .group copies ∧
        drawn = job.draws job.start before ++ (Drawn.of .user own ++ Drawn.of .group copies) ++
          (job.draws (job.after (before ++ [.user u])) rest ++ job.closing (job.after records)) ∧
        settings.Echoed u own copies) ∧
    ∀ d ∈ drawn, d.origin = .group → ∃ before u rest, records = before ++ .user u :: rest ∧
      d ∈ (job.stepUser (job.after before) u).drawn := by
  intro records drawn
  have hnames := Settings.groups_nodup_of_parse hparse
  have hgroups := groups_of_plan hplan hgroup
  refine ⟨fun before u rest hsplit => ?_, fun d hd ho => ?_⟩
  · obtain ⟨own, copies, hstep, hechoed⟩ :=
      stepUser_echoed huser hgroup hgroups hnames (job.after before) u
    refine ⟨own, copies, hstep, ?_, hechoed⟩
    have hdraws := job.draws_split job.start before (.user u) rest
    rw [← hsplit] at hdraws
    rw [show drawn = _ from (convert_drawn hok).2, show Log.records job.clock log = records from rfl,
      hdraws, after_append]
    rw [← hstep, List.append_assoc, List.append_assoc, List.append_assoc]
    rfl
  · rw [show drawn = _ from (convert_drawn hok).2] at hd
    rcases List.mem_append.mp hd with hdraws | hclosing
    · obtain ⟨before, record, ⟨rest, hrest⟩, hstep⟩ := mem_draws hdraws
      cases record with
      | switch s =>
        rcases stepRecord_drawn hstep with hs | hs <;> simp [ho] at hs
      | user u =>
        refine ⟨before, u, rest, ?_, hstep⟩
        rw [show records = _ from hrest.symm, List.append_assoc]
        rfl
    · exact absurd hclosing (not_mem_closing (by simp [ho]) (by simp [ho]))

/-- Two groups that both have a lane for the messages of a process, the second one after another
lane. -/
def echoSettings : Settings where
  ignoreRules := []
  userView := true
  groupView := ⟨true, [
    ⟨"Chat".toList, true, [⟨"App".toList, "message".toList, "Talk".toList⟩]⟩,
    ⟨"Work".toList, true, [⟨"Web".toList, "message".toList, "Page".toList⟩,
      ⟨"App".toList, "message".toList, "Note".toList⟩]⟩]⟩
  cpuView := false

def echoText : Text :=
  "[[],[true],[true,[[\"Chat\",true,[[\"App\",\"message\",\"Talk\"]]],".toList ++
    "[\"Work\",true,[[\"Web\",\"message\",\"Page\"],[\"App\",\"message\",\"Note\"]]]]],".toList ++
    "[false]]".toList

def echoJob : Job where
  settings := echoSettings
  views := ⟨true, true, false⟩
  processes := none
  clock := ⟨none⟩
  groups := .ofSettings echoSettings
  cores := 1
  periodMicros := 10000
  keep := false

/-- A message has a copy on a lane of either group. -/
theorem group_events_copy_message :
    let log := [userLine "App"]
    let drawn := (echoJob.convert log).drawn
    Settings.parse [] echoText = .ok echoSettings ∧
    Job.plan echoSettings Options.new = .ok echoJob ∧
    echoJob.views.user = true ∧ echoJob.views.group = true ∧
    (∃ finished, (echoJob.convert log).result = .ok finished) ∧
    (∃ u own copies, Log.records echoJob.clock log = [.user u] ∧
      (echoJob.stepUser echoJob.start u).drawn =
        Drawn.of .user own ++ Drawn.of .group copies ∧
      echoSettings.Echoed u own copies) ∧
    (Drawn.timed drawn).map (fun d => (d.origin, d.event.pid, d.event.tid)) =
      [(.user, 100, some 101), (.group, -3, some 0), (.group, -4, some 2)] := by
  intro log drawn
  have hparse : Settings.parse [] echoText = .ok echoSettings :=
    toOption_eq_some_iff.mp (by decide +kernel)
  have hplan : Job.plan echoSettings Options.new = .ok echoJob := rfl
  obtain ⟨finished, hok⟩ : ∃ finished, (echoJob.convert log).result = .ok finished :=
    exists_ok_of_isOk (by decide +kernel)
  have hone : ∀ u ∈ (Record.users (Log.records echoJob.clock log)).head?,
      Log.records echoJob.clock log = [.user u] := by decide +kernel
  obtain ⟨u, hu⟩ : ∃ u, (Record.users (Log.records echoJob.clock log)).head? = some u :=
    Option.isSome_iff_exists.mp (by decide +kernel)
  obtain ⟨own, copies, hstep, -, hechoed⟩ :=
    (group_events_copy hparse hplan rfl rfl hok).1 [] u [] (hone u hu)
  exact ⟨hparse, hplan, rfl, rfl, ⟨finished, hok⟩, ⟨u, own, copies, hone u hu, hstep, hechoed⟩,
    by decide +kernel⟩

end Job
end TraceReport
