import Mathlib.Data.List.Basic
import TraceReport.Proofs.Conversion.Intake
import TraceReport.Proofs.Conversion.Naming
import TraceReport.Proofs.Conversion.Switches

namespace TraceReport

namespace Groups

/-- The lanes, each with the track of its group. -/
def placed (groups : Groups) : List (ProcessId × Lane) :=
  groups.lanes.filterMap fun lane => (groups.pid? lane.group).map fun pid => (pid, lane)

theorem sighted_eq_filter (groups : Groups) (seen : List Sighting) :
    groups.sighted seen =
      groups.placed.filter fun (_, lane) => seen.contains (lane.process, lane.physical) := by
  rw [placed, List.filter_filterMap]
  apply List.filterMap_congr
  intro lane _
  cases groups.pid? lane.group with
  | none => simp
  | some pid => simp [Option.filter_some]

@[simp] theorem sighted_nil (groups : Groups) : groups.sighted [] = [] := by
  rw [sighted_eq_filter]
  exact List.filter_eq_nil_iff.mpr fun _ _ => by simp

end Groups

/-- Whether an event puts a record on the groups of a lane. -/
def Lane.shownBy (lane : Lane) : Record × Drawn → Bool
  | (.user u, d) => d.origin == .group &&
      Groups.sighting u.header.process u.signal == (lane.process, lane.physical)
  | (.switch _, _) => false

/-- The name of a lane, on the track of its group. -/
def Lane.named : ProcessId × Lane → Drawn
  | (pid, lane) => ⟨.naming .group, .threadName pid lane.tid lane.logical⟩

namespace Job

/-- What records draw, each event with the record it comes from. -/
def attributed (job : Job) (p : Progress) : List Record → List (Record × Drawn)
  | [] => []
  | record :: rest =>
    (job.stepRecord p record).drawn.map (fun d => (record, d)) ++
      job.attributed (job.stepRecord p record).progress rest

/-- What a conversion draws of the lines of a log, each event with its record. -/
def told (job : Job) (log : List Text) : List (Record × Drawn) :=
  job.attributed job.start (job.intake log)

/-- The lanes that some event shows. -/
def shownLanes (job : Job) (told : List (Record × Drawn)) : List (ProcessId × Lane) :=
  if job.views.group then job.groups.placed.filter fun (_, lane) => told.any lane.shownBy
  else []

/-- What is known only after the last line, but for the names of lanes. -/
def closingTracks (job : Job) (log : List Text) : List Drawn :=
  job.closing { job.after (job.intake log) with seen := [] }

section

variable (job : Job)

theorem attributed_snd (p : Progress) (records : List Record) :
    (job.attributed p records).map Prod.snd = job.draws p records := by
  induction records generalizing p with
  | nil => rfl
  | cons record rest ih =>
    rw [attributed, List.map_append, ih, List.map_map, draws]
    congr 1
    exact List.map_id _

theorem attributed_append (p : Progress) (records : List Record) (record : Record) :
    job.attributed p (records ++ [record]) = job.attributed p records ++
      (job.stepRecord (records.foldl (fun p r => (job.stepRecord p r).progress) p)
        record).drawn.map fun d => (record, d) := by
  induction records generalizing p with
  | nil => simp [attributed]
  | cons first rest ih =>
    rw [List.cons_append, attributed, ih, attributed, List.append_assoc]
    rfl

theorem mem_foldl_insert {sightings seen : List Sighting} {s : Sighting} :
    s ∈ sightings.foldl (fun seen s => seen.insert s) seen ↔ s ∈ sightings ∨ s ∈ seen := by
  induction sightings generalizing seen with
  | nil => simp
  | cons first rest ih =>
    rw [List.foldl_cons, ih, List.mem_insert_iff, List.mem_cons]
    tauto

theorem exists_drawn_group_iff (u : UserRecord) :
    (∃ d ∈ job.drawUser u, d.origin = .group) ↔
      ∃ tracepoint, job.drawable? u = some tracepoint ∧ job.views.group = true ∧
        u.groupEvents job.groups tracepoint ≠ [] := by
  unfold drawUser
  cases job.drawable? u with
  | none => simp
  | some tracepoint =>
    simp only [Option.some.injEq, exists_eq_left']
    constructor
    · rintro ⟨d, hd, ho⟩
      rcases List.mem_append.mp hd with huser | hgroup
      · simp [(Drawn.mem_of.mp huser).1] at ho
      · have he := (Drawn.mem_of.mp hgroup).2
        split_ifs at he with hview
        · exact ⟨hview, List.ne_nil_of_mem he⟩
        · simp at he
    · rintro ⟨hview, hne⟩
      obtain ⟨e, he⟩ := List.exists_mem_of_ne_nil _ hne
      refine ⟨⟨.group, e⟩, List.mem_append_right _ (Drawn.mem_of.mpr ⟨rfl, ?_⟩), rfl⟩
      rwa [if_pos hview]

/-- A signal is sighted when it is drawn on a group. -/
theorem mem_sightings (u : UserRecord) (s : Sighting) :
    s ∈ job.sightings u ↔ (∃ d ∈ job.drawUser u, d.origin = .group) ∧
      Groups.sighting u.header.process u.signal = s := by
  rw [exists_drawn_group_iff, sightings]
  cases job.drawable? u with
  | none => simp
  | some tracepoint =>
    have hshown : (job.views.group && !(u.groupEvents job.groups tracepoint).isEmpty) = true ↔
        job.views.group = true ∧ u.groupEvents job.groups tracepoint ≠ [] := by simp
    simp only [Option.some.injEq, exists_eq_left', ← hshown]
    split_ifs with h
    · simp [h, eq_comm (a := s)]
    · simp [h]

theorem mem_stepRecord_seen (p : Progress) (record : Record) (s : Sighting) :
    s ∈ (job.stepRecord p record).progress.seen ↔
      s ∈ p.seen ∨ ∃ u, record = .user u ∧
        (∃ d ∈ (job.stepRecord p record).drawn, d.origin = .group) ∧
        Groups.sighting u.header.process u.signal = s := by
  cases record with
  | switch switch =>
    have hseen : (job.stepRecord p (.switch switch)).progress.seen = p.seen := by
      simp only [stepRecord, stepSwitch]
      split
      · rfl
      · cases switch.incoming <;> rfl
    simp [hseen]
  | user u =>
    simp only [stepRecord, stepUser]
    split
    · simp
    · simp [mem_foldl_insert, mem_sightings, or_comm]

/-- What was sighted is what is drawn on groups. -/
theorem mem_seen_iff (records : List Record) (s : Sighting) :
    s ∈ (job.after records).seen ↔
      ∃ u d, (.user u, d) ∈ job.attributed job.start records ∧ d.origin = .group ∧
        Groups.sighting u.header.process u.signal = s := by
  induction records using List.reverseRecOn with
  | nil => simp [after, start, attributed]
  | append_singleton before record ih =>
    rw [after_append, mem_stepRecord_seen, ih, attributed_append]
    constructor
    · rintro (⟨u, d, hd, hgroup⟩ | ⟨u, rfl, ⟨d, hd, ho⟩, hs⟩)
      · exact ⟨u, d, List.mem_append_left _ hd, hgroup⟩
      · exact ⟨u, d, List.mem_append_right _ (List.mem_map.mpr ⟨d, hd, rfl⟩), ho, hs⟩
    · rintro ⟨u, d, hd, ho, hs⟩
      rcases List.mem_append.mp hd with hold | hnew
      · exact .inl ⟨u, d, hold, ho, hs⟩
      · obtain ⟨d', hd', heq⟩ := List.mem_map.mp hnew
        cases heq
        exact .inr ⟨u, rfl, ⟨d, hd', ho⟩, hs⟩

theorem any_shownBy_iff (told : List (Record × Drawn)) (lane : Lane) :
    told.any lane.shownBy = true ↔
      ∃ u d, (.user u, d) ∈ told ∧ d.origin = .group ∧
        Groups.sighting u.header.process u.signal = (lane.process, lane.physical) := by
  rw [List.any_eq_true]
  constructor
  · rintro ⟨⟨record, d⟩, hd, hshown⟩
    cases record with
    | switch s => simp [Lane.shownBy] at hshown
    | user u =>
      simp only [Lane.shownBy, Bool.and_eq_true, beq_iff_eq] at hshown
      exact ⟨u, d, hd, hshown⟩
  · rintro ⟨u, d, hd, hshown⟩
    exact ⟨_, hd, by simpa [Lane.shownBy] using hshown⟩

/-- A lane was sighted when some event shows it. -/
theorem sighted_eq_shownLanes (log : List Text) :
    (if job.views.group then job.groups.sighted (job.after (job.intake log)).seen else []) =
      job.shownLanes (job.told log) := by
  rw [shownLanes, Groups.sighted_eq_filter]
  congr 1
  apply List.filter_congr
  rintro ⟨pid, lane⟩ -
  rw [Bool.eq_iff_iff, any_shownBy_iff, List.contains_iff_mem, mem_seen_iff]
  rfl

theorem groupNames_eq (p : Progress) :
    Drawn.of (.naming .group) (job.groupNames p) =
      Drawn.of (.naming .group) (job.groupNames { p with seen := [] }) ++
        (job.groups.sighted p.seen).map Lane.named := by
  simp only [groupNames, Groups.sighted_nil, Drawn.of, List.map_append, List.map_map, List.map_nil,
    List.append_nil]
  rfl

theorem closing_eq (p : Progress) :
    job.closing p = job.closing { p with seen := [] } ++
      (if job.views.group then job.groups.sighted p.seen else []).map Lane.named := by
  unfold closing
  cases job.views.group with
  | false => exact (List.append_nil _).symm
  | true =>
    rw [if_pos rfl, if_pos rfl, if_pos rfl, groupNames_eq, ← List.append_assoc]
    rfl

/-- A conversion draws what its records show, and at the end the names of all tracks and of the
lanes that were shown. -/
theorem convert_told (log : List Text) :
    (job.convert log).drawn = (job.told log).map Prod.snd ++
      if job.firstFault log = none then
        job.closingTracks log ++ (job.shownLanes (job.told log)).map Lane.named
      else [] := by
  rw [convert_intake, told, attributed_snd, closing_eq, sighted_eq_shownLanes]
  rfl

end

section

variable {job other : Job}

/-- What is neither a name nor a reference counter is drawn by a record. -/
theorem mem_draws_of_convert {log : List Text} {d : Drawn} (hd : d ∈ (job.convert log).drawn)
    (hreference : d.origin ≠ .reference) (hnaming : ∀ view, d.origin ≠ .naming view) :
    d ∈ job.draws job.start (job.intake log) := by
  rw [convert_intake] at hd
  rcases List.mem_append.mp hd with hdraws | hclosing
  · exact hdraws
  · split_ifs at hclosing
    · exact absurd hclosing (not_mem_closing hreference hnaming)
    · simp at hclosing

/-- When every record draws a part of what it draws under another job, so does a log. -/
theorem attributed_filter (keep : Record × Drawn → Bool)
    (hcpu : job.views.cpu = other.views.cpu)
    (hstep : ∀ p q record, p.load = q.load → (other.stepRecord q record).drawn =
      (job.stepRecord p record).drawn.filter fun d => keep (record, d))
    (records : List Record) {p q : Progress} (hload : p.load = q.load) :
    other.attributed q records = (job.attributed p records).filter keep := by
  induction records generalizing p q with
  | nil => rfl
  | cons record rest ih =>
    rw [attributed, attributed, List.filter_append, hstep p q record hload, List.filter_map,
      ih (stepRecord_load_congr hcpu hload record)]
    rfl

/-- What a conversion draws of its lines, when every record draws a part of what it draws under
another job that reads the log alike. -/
theorem told_filter (keep : Record × Drawn → Bool) (hclock : job.clock = other.clock)
    (hcpu : job.views.cpu = other.views.cpu) (hcores : job.start.load = other.start.load)
    (hstep : ∀ p q record, p.load = q.load → (other.stepRecord q record).drawn =
      (job.stepRecord p record).drawn.filter fun d => keep (record, d))
    (log : List Text) : other.told log = (job.told log).filter keep := by
  rw [told, told, intake_congr hclock hcpu]
  exact attributed_filter keep hcpu hstep _ hcores

/-- Tracks are named alike by jobs that draw the same views of the same groups. -/
theorem closingTracks_congr (hclock : job.clock = other.clock) (hviews : job.views = other.views)
    (hgroups : job.groups = other.groups) (hcores : job.start.load = other.start.load)
    (log : List Text) : job.closingTracks log = other.closingTracks log := by
  have hcpu : job.views.cpu = other.views.cpu := congrArg Views.cpu hviews
  have hnotes : job.notes = other.notes := by
    funext record
    cases record with
    | switch s => exact hcpu
    | user u => rfl
  have hload (records : List Record) : (job.after records).load = (other.after records).load := by
    induction records using List.reverseRecOn with
    | nil => exact hcores
    | append_singleton before record ih =>
      rw [after_append, after_append]
      exact stepRecord_load_congr hcpu ih record
  simp only [closingTracks, closing, userNames, coreNames, scheduleNames, groupNames, hviews,
    hgroups, intake_congr hclock hcpu, hload, after_names, hnotes]

end

end Job
end TraceReport
