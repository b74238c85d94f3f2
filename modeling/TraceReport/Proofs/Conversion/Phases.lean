import TraceReport.Proofs.Conversion.Naming
import TraceReport.Proofs.Conversion.Switches

namespace TraceReport

/-- Whether events of a phase sum up more than one record. -/
def Phase.sumsUp : Phase → Bool
  | .counter => true
  | .naming => true
  | _ => false

namespace Origin

def isCounter : Origin → Bool
  | .usage => true
  | .reference => true
  | _ => false

def isNaming : Origin → Bool
  | .naming _ => true
  | _ => false

/-- Whether what belongs to an origin may have a phase. -/
structure Allows (origin : Origin) (phase : Phase) : Prop where
  counter : phase = .counter ↔ origin.isCounter = true
  naming : phase = .naming ↔ origin.isNaming = true

theorem allows_of_single {origin : Origin} {phase : Phase} (hcounter : origin.isCounter = false)
    (hnaming : origin.isNaming = false) (hphase : phase.sumsUp = false) : origin.Allows phase := by
  constructor
  · rw [hcounter]
    cases phase <;> simp_all [Phase.sumsUp]
  · rw [hnaming]
    cases phase <;> simp_all [Phase.sumsUp]

theorem allows_counter {origin : Origin} (h : origin.isCounter = true) :
    origin.Allows .counter := by
  cases origin with
  | usage => exact ⟨by decide, by decide⟩
  | reference => exact ⟨by decide, by decide⟩
  | _ => simp [isCounter] at h

theorem allows_naming (view : View) : (Origin.naming view).Allows .naming :=
  ⟨by simp [isCounter], by simp [isNaming]⟩

end Origin

/-- All that has a place in time, which is all but the names of tracks. -/
def Drawn.timed (drawn : List Drawn) : List Drawn :=
  drawn.filter fun d => d.event.phase ≠ .naming

namespace Tracepoint

variable {t : Tracepoint} {phase : Phase}

theorem onUserView_phase (h : t.onUserView = .event phase) : phase.sumsUp = false := by
  cases t <;> cases h <;> rfl

theorem onGroupView_phase (h : t.onGroupView = .event phase) : phase.sumsUp = false := by
  cases t <;> cases h <;> rfl

end Tracepoint

namespace UserRecord

variable {record : UserRecord} {tracepoint : Tracepoint} {e : Event}

theorem userEvents_phase (h : e ∈ record.userEvents tracepoint) : e.phase.sumsUp = false := by
  unfold userEvents at h
  split at h
  case h_1 s phase hview =>
    obtain rfl := List.mem_singleton.mp h
    exact Tracepoint.onUserView_phase hview
  case h_2 b phase hview =>
    obtain rfl := List.mem_singleton.mp h
    exact Tracepoint.onUserView_phase hview
  case h_3 b hview =>
    simp only [Block.objectEvents, List.mem_cons, List.not_mem_nil, or_false] at h
    rcases h with rfl | rfl | rfl | rfl <;> rfl
  case h_4 => simp at h

theorem groupEvents_phase {groups : Groups} (h : e ∈ record.groupEvents groups tracepoint) :
    e.phase.sumsUp = false := by
  unfold groupEvents at h
  split at h
  case h_1 phase hview =>
    obtain ⟨track, -, rfl⟩ := List.mem_map.mp h
    exact Tracepoint.onGroupView_phase hview
  case h_2 => simp at h

end UserRecord

section

variable {time : Micros} {shares : List Binary64} {total : Binary64} {e : Event}

theorem counters_length : (counters time shares total).length = shares.length + 1 := by
  rw [counters, List.length_append, List.length_map, List.length_zipIdx]
  rfl

theorem mem_counters (h : e ∈ counters time shares total) :
    e.phase = .counter ∧ e.time = some time := by
  rcases List.mem_append.mp h with hcore | htotal
  · obtain ⟨share, -, rfl⟩ := List.mem_map.mp hcore
    exact ⟨rfl, rfl⟩
  · obtain rfl := List.mem_singleton.mp htotal
    exact ⟨rfl, rfl⟩

theorem pid_of_mem_counters (h : e ∈ counters time shares total) : e.pid = corePid := by
  rcases List.mem_append.mp h with hcore | htotal
  · obtain ⟨share, -, rfl⟩ := List.mem_map.mp hcore
    rfl
  · obtain rfl := List.mem_singleton.mp htotal
    rfl

end

namespace Job

variable {job : Job} {p : Progress} {d : Drawn}

theorem scheduleEvents_phase {s : Switch} {phase : Phase} {task : Text} {tid? : Option ThreadId}
    {e : Event} (h : e ∈ job.scheduleEvents s phase task tid?) : e.phase = phase := by
  obtain ⟨tid, -, -, rfl⟩ := mem_scheduleEvents.mp h
  rfl

theorem stepRecord_allows {record : Record} (hd : d ∈ (job.stepRecord p record).drawn) :
    d.origin.Allows d.event.phase := by
  cases record with
  | user u =>
    rcases stepRecord_drawn hd with ⟨ho, tracepoint, he⟩ | ⟨ho, tracepoint, he⟩
    · rw [ho]
      exact Origin.allows_of_single rfl rfl (UserRecord.userEvents_phase he)
    · rw [ho]
      exact Origin.allows_of_single rfl rfl (UserRecord.groupEvents_phase he)
  | switch s =>
    rw [stepRecord, stepSwitch_drawn] at hd
    split_ifs at hd
    · rcases List.mem_append.mp hd with hswitch | husage
      · obtain ⟨ho, he⟩ := Drawn.mem_of.mp hswitch
        rw [ho]
        rcases List.mem_append.mp he with hended | hbegun
        · exact Origin.allows_of_single rfl rfl (scheduleEvents_phase hended ▸ rfl)
        · exact Origin.allows_of_single rfl rfl (scheduleEvents_phase hbegun ▸ rfl)
      · obtain ⟨ho, he⟩ := Drawn.mem_of.mp husage
        cases hw : (s.onLoad p.load).2 with
        | none => simp [hw] at he
        | some w =>
          rw [hw] at he
          rw [ho, (mem_counters he).1]
          exact Origin.allows_counter rfl
    · simp at hd

theorem userNames_phase {e : Event} (h : e ∈ userNames p) : e.phase = .naming := by
  rcases List.mem_append.mp h with hprocess | hthread
  · obtain ⟨entry, -, rfl⟩ := List.mem_map.mp hprocess
    rfl
  · obtain ⟨entry, -, rfl⟩ := List.mem_map.mp hthread
    rfl

theorem coreNames_phase {e : Event} (h : e ∈ coreNames p) : e.phase = .naming := by
  rcases List.mem_cons.mp h with rfl | h
  · rfl
  · rcases List.mem_append.mp h with hcore | htotal
    · obtain ⟨core, -, rfl⟩ := List.mem_map.mp hcore
      rfl
    · obtain rfl := List.mem_singleton.mp htotal
      rfl

theorem scheduleNames_phase {e : Event} (h : e ∈ scheduleNames p) : e.phase = .naming := by
  rcases List.mem_cons.mp h with rfl | hthread
  · rfl
  · obtain ⟨entry, -, rfl⟩ := List.mem_map.mp hthread
    rfl

theorem groupNames_phase {e : Event} (h : e ∈ job.groupNames p) : e.phase = .naming := by
  rcases List.mem_append.mp h with htrack | hlane
  · obtain ⟨track, -, rfl⟩ := List.mem_map.mp htrack
    rfl
  · obtain ⟨entry, -, rfl⟩ := List.mem_map.mp hlane
    rfl

theorem closing_allows (hd : d ∈ job.closing p) : d.origin.Allows d.event.phase := by
  have hname (view : View) (ho : d.origin = .naming view) (hphase : d.event.phase = .naming) :
      d.origin.Allows d.event.phase := by
    rw [ho, hphase]
    exact Origin.allows_naming view
  rcases mem_closing.mp hd with ⟨-, ho, he⟩ | ⟨-, ⟨ho, he | he⟩ | ⟨ho, he⟩⟩ | ⟨-, ho, he⟩
  · exact hname _ ho (userNames_phase he)
  · exact hname _ ho (coreNames_phase he)
  · exact hname _ ho (scheduleNames_phase he)
  · rw [ho, (mem_counters he).1]
    exact Origin.allows_counter rfl
  · exact hname _ ho (groupNames_phase he)

theorem draws_allows {records : List Record} (hd : d ∈ job.draws job.start records) :
    d.origin.Allows d.event.phase := by
  obtain ⟨before, record, -, hstep⟩ := mem_draws hd
  exact stepRecord_allows hstep

theorem draws_phase_ne_naming {records : List Record} (hd : d ∈ job.draws job.start records) :
    d.event.phase ≠ .naming := by
  intro hphase
  have hnaming := (draws_allows hd).naming.mp hphase
  have horigin := origin_of_mem_draws hd
  simp only [List.mem_cons, List.not_mem_nil, or_false] at horigin
  rcases horigin with ho | ho | ho | ho <;> simp [ho, Origin.isNaming] at hnaming

/-- Whatever a conversion draws, its counters are those of windows and of the scale, and its names
those of tracks. -/
theorem convert_allows {log : List Text} {finished : Finished}
    (hok : (job.convert log).result = .ok finished) (hd : d ∈ (job.convert log).drawn) :
    d.origin.Allows d.event.phase := by
  rw [(convert_drawn hok).2] at hd
  rcases List.mem_append.mp hd with hdraws | hclosing
  · exact draws_allows hdraws
  · exact closing_allows hclosing

end Job
end TraceReport
