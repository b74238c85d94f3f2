import TraceReport.Proofs.Conversion.Sources
import TraceReport.Proofs.Conversion.Views

namespace TraceReport

/-- The process that an event of a record is about. Counters are about none. -/
def Record.shown : Record → Drawn → Option Text
  | .user u, _ => some u.header.process
  | .switch s, d =>
    match d.origin, d.event.phase with
    | .schedule, .finish => some s.header.process
    | .schedule, _ => some s.nextName
    | _, _ => none

theorem Drawn.of_append (origin : Origin) (events more : List Event) :
    Drawn.of origin (events ++ more) = Drawn.of origin events ++ Drawn.of origin more :=
  List.map_append

namespace Job

/-- A job with a list of the processes to draw. -/
def limited (job : Job) (names : List Text) : Job := { job with processes := some names }

/-- What a conversion draws, each event with the process it is about; the name of a lane is about
the process of the lane. -/
def display (job : Job) (log : List Text) : List (Option Text × Drawn) :=
  (job.told log).map (fun (record, d) => (record.shown d, d)) ++
    if job.firstFault log = none then
      (job.closingTracks log).map (fun d => (none, d)) ++
        (job.shownLanes (job.told log)).map fun (pid, lane) =>
          (some lane.process, Lane.named (pid, lane))
    else []

/-- Whether events about a process are drawn; those about none always are. -/
def listed (names : List Text) (process : Option Text) : Bool := process.all names.contains

section

variable {job : Job} (names : List Text)

theorem display_snd (job : Job) (log : List Text) :
    (job.display log).map Prod.snd = (job.convert log).drawn := by
  have hclosing (drawn : List Drawn) :
      (drawn.map fun d => ((none : Option Text), d)).map Prod.snd = drawn := by
    rw [List.map_map]
    exact List.map_id _
  rw [convert_told, display, List.map_append, apply_ite (List.map Prod.snd), List.map_append,
    hclosing, List.map_map, List.map_map]
  rfl

@[simp] theorem limited_settings : (job.limited names).settings = job.settings := rfl

@[simp] theorem limited_views : (job.limited names).views = job.views := rfl

@[simp] theorem limited_clock : (job.limited names).clock = job.clock := rfl

@[simp] theorem limited_groups : (job.limited names).groups = job.groups := rfl

theorem selects_limited (task : Text) : (job.limited names).selects task = names.contains task :=
  rfl

theorem selects_all (hall : job.processes = none) (task : Text) : job.selects task = true := by
  rw [selects, hall]

theorem scheduleEvents_limited (hall : job.processes = none) (s : Switch) (phase : Phase)
    {task : Text} (tid? : Option ThreadId)
    (hshown : ∀ tid, (Record.switch s).shown ⟨.schedule, s.event phase task tid⟩ = some task) :
    Drawn.of .schedule ((job.limited names).scheduleEvents s phase task tid?) =
      (Drawn.of .schedule (job.scheduleEvents s phase task tid?)).filter fun d =>
        listed names ((Record.switch s).shown d) := by
  cases tid? with
  | none => rfl
  | some tid =>
    have hlisted : listed names ((Record.switch s).shown ⟨.schedule, s.event phase task tid⟩) =
        names.contains task := by rw [hshown]; rfl
    have hall' : job.selects task = true := selects_all hall task
    cases hselects : (job.limited names).selects task with
    | true => simp [scheduleEvents, Drawn.of, hselects, hall', hlisted.trans hselects]
    | false => simp [scheduleEvents, Drawn.of, hselects, hall', hlisted.trans hselects]

theorem drawUser_limited (hall : job.processes = none) (u : UserRecord) :
    (job.limited names).drawUser u =
      (job.drawUser u).filter fun d => listed names ((Record.user u).shown d) := by
  have hlisted (d : Drawn) :
      listed names ((Record.user u).shown d) = names.contains u.header.process := rfl
  have hdrawable : (job.limited names).drawable? u =
      if names.contains u.header.process then job.drawable? u else none := by
    simp only [drawable?, selects_limited, selects_all hall, if_true]
    rfl
  simp only [drawUser, hdrawable, hlisted]
  cases names.contains u.header.process with
  | true => exact (List.filter_true _).symm
  | false => exact (List.filter_false _).symm

/-- With a list of processes, a record draws what it draws without, but for the events of other
processes. -/
theorem stepRecord_limited (hall : job.processes = none) {p q : Progress} (hload : p.load = q.load)
    (record : Record) :
    ((job.limited names).stepRecord q record).drawn =
      (job.stepRecord p record).drawn.filter fun d => listed names (record.shown d) := by
  cases record with
  | user u =>
    rw [stepRecord, stepRecord, stepUser_drawn, stepUser_drawn, limited_settings]
    split
    · rfl
    · exact drawUser_limited names hall u
  | switch s =>
    rw [stepRecord, stepRecord, stepSwitch_drawn, stepSwitch_drawn, limited_views, hload]
    split
    · have hfinish := scheduleEvents_limited names hall s .finish s.outgoing? fun _ => rfl
      have hbegin := scheduleEvents_limited names hall s .begin s.turn.entering fun _ => rfl
      have husage (events : List Event) : (Drawn.of .usage events).filter
          (fun d => listed names ((Record.switch s).shown d)) = Drawn.of .usage events := by
        rw [List.filter_eq_self]
        intro d hd
        obtain ⟨e, -, rfl⟩ := List.mem_map.mp hd
        rfl
      rw [List.filter_append, husage, switchEvents, switchEvents, Drawn.of_append, Drawn.of_append,
        List.filter_append, ← hfinish, ← hbegin]
    · rfl

theorem told_limited (hall : job.processes = none) (log : List Text) :
    (job.limited names).told log =
      (job.told log).filter fun (record, d) => listed names (record.shown d) := by
  apply told_filter (fun (record, d) => listed names (record.shown d)) (limited_clock names).symm
    rfl rfl
  exact fun p q record hload => stepRecord_limited names hall hload record

theorem shownLanes_limited (told : List (Record × Drawn)) :
    (job.limited names).shownLanes
        (told.filter fun (record, d) => listed names (record.shown d)) =
      (job.shownLanes told).filter fun (_, lane) => names.contains lane.process := by
  rw [shownLanes, shownLanes, limited_views, limited_groups]
  split
  · rw [List.filter_filter]
    apply List.filter_congr
    rintro ⟨pid, lane⟩ -
    rw [Bool.eq_iff_iff, any_shownBy_iff, Bool.and_eq_true, any_shownBy_iff]
    constructor
    · rintro ⟨u, d, hd, horigin, hs⟩
      have hprocess : u.header.process = lane.process := (Prod.mk.inj hs).1
      have hlisted : names.contains u.header.process = true := (List.mem_filter.mp hd).2
      rw [hprocess] at hlisted
      exact ⟨hlisted, u, d, (List.mem_filter.mp hd).1, horigin, hs⟩
    · rintro ⟨hlisted, u, d, htold, horigin, hs⟩
      have hprocess : u.header.process = lane.process := (Prod.mk.inj hs).1
      have hkept : names.contains u.header.process = true := hprocess ▸ hlisted
      exact ⟨u, d, List.mem_filter.mpr ⟨htold, hkept⟩, horigin, hs⟩
  · rfl

theorem firstFault_limited (log : List Text) :
    (job.limited names).firstFault log = job.firstFault log :=
  firstFault_congr (limited_clock names) rfl log

theorem display_limited (hall : job.processes = none) (log : List Text) :
    ((job.limited names).convert log).drawn =
      ((job.display log).filter fun e => listed names e.1).map Prod.snd := by
  have hclosing : (job.limited names).closingTracks log = job.closingTracks log :=
    closingTracks_congr (limited_clock names) rfl rfl rfl log
  rw [convert_told, told_limited names hall, shownLanes_limited, firstFault_limited, hclosing,
    display, List.filter_append, List.map_append, List.filter_map, List.map_map]
  congr 1
  split
  · rw [List.filter_append, List.map_append, List.filter_map, List.filter_map, List.map_map,
      List.map_map]
    congr 1
    have hnone : ((fun e : Option Text × Drawn => listed names e.1) ∘ fun d => (none, d)) =
        fun _ => true := rfl
    rw [hnone, List.filter_true]
    exact (List.map_id _).symm
  · rfl

end

/-- The list of processes has no say in whether options are allowed. -/
theorem plan_limited (settings : Settings) (options : Options) (names : List Text) :
    plan settings { options with processes := some names } =
      (plan settings { options with processes := none }).map (·.limited names) := by
  obtain ⟨boot, views, processes, period, cores, keep⟩ := options
  unfold plan
  dsimp only [Options.effectiveViews]
  split
  · rfl
  · split <;> rfl

/-- With a list of processes a report is the report without it, less the events about other
processes and the names of lanes of other processes. A lane has its name in the report only if
something is drawn on it. -/
theorem allow_list_filters (settings : Settings) (options : Options) (names : List Text)
    (log : List Text) :
    let limited := plan settings { options with processes := some names }
    match plan settings { options with processes := none } with
    | .error fault => limited = .error fault
    | .ok job =>
      limited = .ok (job.limited names) ∧
      (∀ fault, ((job.limited names).convert log).result = .error fault ↔
        (job.convert log).result = .error fault) ∧
      (job.convert log).drawn = (job.display log).map Prod.snd ∧
      ((job.limited names).convert log).drawn =
        ((job.display log).filter fun e => listed names e.1).map Prod.snd := by
  intro limited
  have hplan : limited =
      (plan settings { options with processes := none }).map (·.limited names) :=
    plan_limited settings options names
  rw [hplan]
  cases hjob : plan settings { options with processes := none } with
  | error fault => rfl
  | ok job =>
    have hall : job.processes = none := by rw [(eq_of_plan hjob).2.2]
    refine ⟨rfl, fun fault => ?_, (job.display_snd log).symm, display_limited names hall log⟩
    rw [convert_error_iff, convert_error_iff, firstFault_limited]

/-- A list of processes that touches events only, and leaves all names of tracks as they are. -/
def FiltersEventsOnly (job : Job) (names log : List Text) : Prop :=
  ((job.limited names).convert log).drawn =
    ((job.display log).filter fun (process, d) =>
      d.event.phase == .naming || listed names process).map Prod.snd

theorem not_filtersEventsOnly :
    plan allViews Options.new = .ok allViewsJob ∧
      (allViewsJob.convert [userLine "App"]).result.isOk = true ∧
      ¬FiltersEventsOnly allViewsJob ["Other".toList] [userLine "App"] := by
  refine ⟨rfl, by decide +kernel, fun h => ?_⟩
  have hlength := congrArg List.length h
  revert hlength
  decide +kernel

end Job
end TraceReport
