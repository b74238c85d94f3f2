import TraceReport.Proofs.Conversion.Intake
import TraceReport.Proofs.Conversion.Plan
import TraceReport.Proofs.Conversion.Switches
import TraceReport.Proofs.Conversion.UserTracks

namespace TraceReport

namespace View

/-- Whether a view shows an event on its timeline. The names of tracks are on no timeline. -/
def shows : View → Origin → Bool
  | .user, .user => true
  | .group, .group => true
  | .cpu, .schedule => true
  | .cpu, .usage => true
  | .cpu, .reference => true
  | _, _ => false

/-- The cores are drawn from switches, the other views from what programs wrote themselves. -/
def reads : View → Record → Bool
  | .cpu, .switch _ => true
  | .user, .user _ => true
  | .group, .user _ => true
  | _, _ => false

end View

namespace Views

def has (views : Views) : View → Bool
  | .user => views.user
  | .group => views.group
  | .cpu => views.cpu

def only (view : View) : Views := Views.none.add view

@[simp] theorem only_isEmpty (view : View) : (only view).isEmpty = false := by cases view <;> rfl

end Views

/-- The lines of a log that have a record which a view reads. -/
def Log.readBy (view : View) (clock : Clock) (log : List Text) : List Text :=
  log.filter fun raw =>
    match Line.record clock raw with
    | .ok (some record) => view.reads record
    | _ => false

theorem Log.records_readBy (view : View) (clock : Clock) (log : List Text) :
    Log.records clock (Log.readBy view clock log) =
      (Log.records clock log).filter view.reads := by
  rw [Log.records, Log.readBy, Log.records, List.filterMap_filter, List.filter_filterMap]
  apply List.filterMap_congr
  intro raw _
  cases hr : Line.record clock raw with
  | error fault => simp [Except.toOption]
  | ok found =>
    cases found with
    | none => simp [Except.toOption]
    | some record => simp [Except.toOption, Option.filter_some]

namespace Drawn

/-- What a view shows, in order. -/
def timeline (view : View) (drawn : List Drawn) : List Event :=
  Drawn.events (drawn.filter fun d => view.shows d.origin)

section

variable (view : View)

@[simp] theorem timeline_nil : timeline view [] = [] := rfl

@[simp] theorem timeline_append (drawn more : List Drawn) :
    timeline view (drawn ++ more) = timeline view drawn ++ timeline view more := by
  simp [timeline, Drawn.events]

@[simp] theorem timeline_of (origin : Origin) (events : List Event) :
    timeline view (Drawn.of origin events) = if view.shows origin then events else [] := by
  induction events with
  | nil => simp [timeline, Drawn.of, Drawn.events]
  | cons e more ih =>
    rw [timeline, Drawn.of, Drawn.events] at ih
    by_cases h : view.shows origin = true
    · simpa [timeline, Drawn.of, Drawn.events, h] using ih
    · simp [timeline, Drawn.of, Drawn.events, h]

end

end Drawn

namespace Job

/-- The job that draws one view and nothing else. -/
def alone (job : Job) (view : View) : Job :=
  { job with
    views := .only view
    groups := if (Views.only view).group then job.groups else .none }

theorem plan_only {settings : Settings} {options : Options} {job : Job} {view : View}
    (h : plan settings options = .ok job) (hview : job.views.has view = true) :
    plan settings { options with views := some (.only view) } = .ok (job.alone view) := by
  obtain ⟨-, hperiod, rfl⟩ := eq_of_plan h
  have hgroups : (if (Views.only view).group then Groups.ofSettings settings else .none) =
      if (Views.only view).group then
        if (options.effectiveViews settings).group then Groups.ofSettings settings else .none
      else .none := by
    cases view with
    | user | cpu => rfl
    | group =>
      have hgroup : (options.effectiveViews settings).group = true := hview
      rw [hgroup]
      rfl
  rw [alone, ← hgroups, plan]
  simp only [Options.effectiveViews, Option.getD_some, Views.only_isEmpty, hperiod]
  rfl

section

variable {job : Job} {view : View}

/-- What a record puts on the timeline of a view is the same when the view is drawn alone, and
nothing if the view does not read it. -/
theorem timeline_stepRecord (hview : job.views.has view = true) {p q : Progress}
    (hload : view = .cpu → p.load = q.load) (record : Record) :
    Drawn.timeline view (job.stepRecord p record).drawn =
      if view.reads record then
        Drawn.timeline view ((job.alone view).stepRecord q record).drawn
      else [] := by
  cases record with
  | switch s =>
    simp only [stepRecord, stepSwitch_drawn]
    cases view with
    | user | group => cases job.views.cpu <;> simp [View.shows, View.reads]
    | cpu =>
      have hcpu : job.views.cpu = true := hview
      have halone : (job.alone .cpu).views.cpu = true := rfl
      rw [hcpu, halone, hload rfl]
      rfl
  | user u =>
    have hdrawable : (job.alone view).drawable? u = job.drawable? u := rfl
    have hignores : (job.alone view).settings = job.settings := rfl
    simp only [stepRecord, stepUser_drawn, hignores, drawUser, hdrawable]
    split
    · simp
    · cases job.drawable? u with
      | none => simp
      | some tracepoint =>
        cases view with
        | cpu => simp [View.shows, View.reads]
        | user =>
          have huser : job.views.user = true := hview
          simp [View.shows, View.reads, huser, alone, Views.only, Views.add]
        | group =>
          have hgroup : job.views.group = true := hview
          simp [View.shows, View.reads, hgroup, alone, Views.only, Views.add]

theorem load_unread {p : Progress} {record : Record} (hr : View.cpu.reads record = false) :
    (job.stepRecord p record).progress.load = p.load := by
  cases record with
  | user u => exact stepUser_load job p u
  | switch s => simp [View.reads] at hr

/-- The timeline of a view goes by the records the view reads. -/
theorem timeline_draws (hview : job.views.has view = true) (records : List Record)
    {p q : Progress} (hload : view = .cpu → p.load = q.load) :
    Drawn.timeline view (job.draws p records) =
        Drawn.timeline view ((job.alone view).draws q (records.filter view.reads)) ∧
      (view = .cpu →
        (records.foldl (fun p r => (job.stepRecord p r).progress) p).load =
          ((records.filter view.reads).foldl
            (fun p r => ((job.alone view).stepRecord p r).progress) q).load) := by
  induction records generalizing p q with
  | nil => exact ⟨rfl, hload⟩
  | cons record rest ih =>
    have hdrawn := timeline_stepRecord hview hload record
    rw [draws, Drawn.timeline_append, hdrawn]
    by_cases hr : view.reads record = true
    · have hnext : view = .cpu → (job.stepRecord p record).progress.load =
          ((job.alone view).stepRecord q record).progress.load := by
        rintro rfl
        exact stepRecord_load_congr hview (hload rfl) record
      obtain ⟨hrest, hend⟩ := ih hnext
      rw [if_pos hr, hrest, List.filter_cons_of_pos hr, draws, Drawn.timeline_append]
      exact ⟨rfl, hend⟩
    · have hnext : view = .cpu → (job.stepRecord p record).progress.load = q.load := by
        rintro rfl
        exact (load_unread (by simpa using hr)).trans (hload rfl)
      obtain ⟨hrest, hend⟩ := ih hnext
      rw [if_neg hr, hrest, List.filter_cons_of_neg hr]
      exact ⟨rfl, hend⟩

/-- At the end only the cores have something for their timeline. -/
theorem timeline_closing (job : Job) (view : View) (p : Progress) :
    Drawn.timeline view (job.closing p) =
      if view = .cpu ∧ job.views.cpu = true then p.load.referenceEvents else [] := by
  cases view <;>
    simp [closing, apply_ite (Drawn.timeline _), View.shows]

/-- A view that is drawn alone accepts the lines it reads of a log that is accepted with it. -/
theorem accepts_alone (hview : job.views.has view = true) {log : List Text}
    (hok : ∀ raw ∈ log, job.accepts raw = true) :
    ∀ raw ∈ Log.readBy view job.clock log, (job.alone view).accepts raw = true := by
  intro raw hm
  obtain ⟨hmem, hread⟩ := List.mem_filter.mp hm
  have haccepts := hok raw hmem
  have hclock : (job.alone view).clock = job.clock := rfl
  rw [accepts] at haccepts ⊢
  rw [hclock]
  cases hr : Line.record job.clock raw with
  | error fault => simp [hr] at hread
  | ok found =>
    cases found with
    | none => rfl
    | some record =>
      cases record with
      | user u => rfl
      | switch s =>
        rw [hr] at haccepts
        cases view with
        | user | group => simp [hr, View.reads] at hread
        | cpu =>
          have hcpu : job.views.cpu = true := hview
          simp only [hcpu, Bool.not_true, Bool.false_or] at haccepts
          simp [haccepts]

theorem timeline_convert {log : List Text} (hok : (job.convert log).result.isOk = true) :
    Drawn.timeline view (job.convert log).drawn =
      Drawn.timeline view (job.draws job.start (Log.records job.clock log)) ++
        if view = .cpu ∧ job.views.cpu = true then
          (job.after (Log.records job.clock log)).load.referenceEvents
        else [] := by
  obtain ⟨finished, hfinished⟩ := exists_ok_of_isOk hok
  rw [(convert_drawn hfinished).2, Drawn.timeline_append, timeline_closing]

end

/-- Views do not disturb one another: each shows on its timeline what it shows when it is drawn
alone, of a log with nothing but the records it reads. -/
theorem timeline_of_view_alone {settings : Settings} {options : Options} {job : Job} {view : View}
    {log : List Text} (hplan : Job.plan settings options = .ok job)
    (hview : job.views.has view = true) (hok : (job.convert log).result.isOk = true) :
    let reduced := Log.readBy view ⟨options.boot⟩ log
    ∃ alone, Job.plan settings { options with views := some (.only view) } = .ok alone ∧
      (alone.convert reduced).result.isOk = true ∧
      Drawn.timeline view (alone.convert reduced).drawn =
        Drawn.timeline view (job.convert log).drawn := by
  intro reduced
  have hclock : job.clock = ⟨options.boot⟩ := by rw [(eq_of_plan hplan).2.2]
  have hreduced : reduced = Log.readBy view job.clock log := by rw [hclock]
  have haccepts := (job.convert_isOk_iff log).mp hok
  have halone : ((job.alone view).convert reduced).result.isOk = true := by
    rw [convert_isOk_iff, hreduced]
    exact accepts_alone hview haccepts
  have hrecords : Log.records (job.alone view).clock reduced =
      (Log.records job.clock log).filter view.reads := by
    rw [hreduced]
    exact Log.records_readBy view job.clock log
  obtain ⟨hdraws, hload⟩ :=
    timeline_draws hview (Log.records job.clock log) (p := job.start)
      (q := (job.alone view).start) fun _ => rfl
  refine ⟨job.alone view, plan_only hplan hview, halone, ?_⟩
  rw [timeline_convert halone, timeline_convert hok, hrecords, hdraws]
  congr 1
  cases view with
  | user | group => simp
  | cpu =>
    have hcpu : job.views.cpu = true := hview
    have honly : (job.alone .cpu).views.cpu = true := rfl
    rw [if_pos ⟨rfl, honly⟩, if_pos ⟨rfl, hcpu⟩]
    exact congrArg Load.referenceEvents (hload rfl).symm

/-- Settings with all views, and a group that shows the messages of a process. -/
def allViews : Settings where
  ignoreRules := []
  userView := true
  groupView := {
    enabled := true
    groups := [⟨"Chat".toList, true, [⟨"App".toList, "message".toList, "Talk".toList⟩]⟩] }
  cpuView := true

/-- The job of these settings and default options. -/
def allViewsJob : Job where
  settings := allViews
  views := ⟨true, true, true⟩
  processes := none
  clock := ⟨none⟩
  groups := .ofSettings allViews
  cores := 1
  periodMicros := 10000
  keep := false

theorem timeline_of_group_alone :
    let job := allViewsJob
    let log := [userLine "App", switchLine]
    let reduced := Log.readBy .group ⟨none⟩ log
    Job.plan allViews Options.new = .ok job ∧ job.views.has .group = true ∧
      (job.convert log).result.isOk = true ∧ reduced = [userLine "App"] ∧
      (Drawn.timeline .group (job.convert log).drawn).length = 1 ∧
      ∃ alone, Job.plan allViews { Options.new with views := some (.only .group) } = .ok alone ∧
        (alone.convert reduced).result.isOk = true ∧
        Drawn.timeline .group (alone.convert reduced).drawn =
          Drawn.timeline .group (job.convert log).drawn := by
  intro job log reduced
  have hplan : Job.plan allViews Options.new = .ok job := rfl
  have hreduced : reduced = [userLine "App"] := by decide +kernel
  have hlog : (job.convert log).result.isOk = true ∧
      (Drawn.timeline .group (job.convert log).drawn).length = 1 := by decide +kernel
  exact ⟨hplan, rfl, hlog.1, hreduced, hlog.2, timeline_of_view_alone hplan rfl hlog.1⟩

end Job
end TraceReport
