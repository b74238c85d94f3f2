import TraceReport.Proofs.Conversion.Reading
import TraceReport.Proofs.Track.Names

namespace TraceReport

def Header.note (h : Header) : Note := ⟨h.process, h.pid, h.tid⟩

@[simp] theorem Header.note_pid (h : Header) : h.note.pid = h.pid := rfl

@[simp] theorem Header.note_tid (h : Header) : h.note.tid = h.tid := rfl

namespace Drawn

theorem mem_of {origin : Origin} {events : List Event} {d : Drawn} :
    d ∈ Drawn.of origin events ↔ d.origin = origin ∧ d.event ∈ events := by
  obtain ⟨o, e⟩ := d
  simp [Drawn.of, eq_comm, and_comm]

theorem events_of (origin : Origin) (list : List Event) : events (Drawn.of origin list) = list := by
  rw [events, Drawn.of, List.map_map]
  exact List.map_id list

theorem filter_of (keep : Origin → Bool) (origin : Origin) (events : List Event) :
    (Drawn.of origin events).filter (fun d => keep d.origin) =
      if keep origin then Drawn.of origin events else [] := by
  split_ifs with h
  · refine List.filter_eq_self.mpr fun d hd => ?_
    rw [(mem_of.mp hd).1, h]
  · refine List.filter_eq_nil_iff.mpr fun d hd => ?_
    rw [(mem_of.mp hd).1]
    exact h

end Drawn

namespace UserRecord

/-- Events of the user view are on the thread of their record. -/
theorem userEvents_track {record : UserRecord} {tracepoint : Tracepoint} {e : Event}
    (h : e ∈ record.userEvents tracepoint) :
    e.pid = record.header.pid ∧ e.tid = some record.header.tid := by
  unfold userEvents at h
  split at h
  · obtain rfl := List.mem_singleton.mp h
    exact ⟨rfl, rfl⟩
  · obtain rfl := List.mem_singleton.mp h
    exact ⟨rfl, rfl⟩
  · simp only [Block.objectEvents, List.mem_cons, List.not_mem_nil, or_false] at h
    rcases h with rfl | rfl | rfl | rfl <;> exact ⟨rfl, rfl⟩
  · simp at h

end UserRecord

namespace Event

theorem label_of_nameRecord {kind kind' : String} {pid pid' : ProcessId}
    {tid tid' : Option ThreadId} {label label' : Text}
    (h : nameRecord kind pid tid label = nameRecord kind' pid' tid' label') :
    pid = pid' ∧ tid = tid' ∧ label = label' := by
  have hlabel : some [("name".toList, Json.string label)] =
      some [("name".toList, Json.string label')] := congrArg Event.arguments h
  refine ⟨congrArg Event.pid h, congrArg Event.tid h, ?_⟩
  injection hlabel with hlist
  injection hlist with hpair
  injection hpair with _ hstring
  injection hstring

end Event

namespace Job

/-- Whether a record names its tracks; switches do when cores are drawn. -/
def notes (job : Job) : Record → Bool
  | .switch _ => job.views.cpu
  | .user _ => true

/-- The last record that names a thread, but for those of idle tasks. -/
def lastAbout (job : Job) (tid : ThreadId) (records : List Record) : Option Record :=
  (records.filter fun record => job.notes record &&
    (!record.header.note.isIdle && record.header.tid == tid)).getLast?

theorem stepRecord_names (job : Job) (p : Progress) (record : Record) :
    (job.stepRecord p record).progress.names =
      if job.notes record then
        p.names.note record.header.process record.header.pid record.header.tid
      else p.names := by
  cases record with
  | switch s =>
    by_cases hcpu : job.views.cpu = true
    · simp only [stepRecord, stepSwitch, notes, hcpu]
      cases s.incoming <;> rfl
    · simp [stepRecord, stepSwitch, notes, hcpu]
  | user record =>
    simp only [stepRecord, stepUser, notes]
    split <;> rfl

/-- Tracks go by the records that name them. -/
theorem after_names (job : Job) (records : List Record) :
    (job.after records).names =
      TrackNames.after ((records.filter job.notes).map fun record => record.header.note) := by
  induction records using List.reverseRecOn with
  | nil => rfl
  | append_singleton before record ih =>
    rw [after_append, stepRecord_names, List.filter_append, List.map_append]
    by_cases hn : job.notes record = true
    · rw [if_pos hn, List.filter_cons_of_pos hn, List.filter_nil, List.map_singleton,
        TrackNames.after_append, ih]
      rfl
    · rw [if_neg hn, List.filter_cons_of_neg hn, List.filter_nil, List.map_nil, List.append_nil, ih]

theorem lastOn_eq (job : Job) (tid : ThreadId) (records : List Record) :
    Note.lastOn tid ((records.filter job.notes).map fun record => record.header.note) =
      (job.lastAbout tid records).map fun record => record.header.note := by
  rw [Note.lastOn, Note.last, lastAbout, List.filter_map, List.getLast?_map, List.filter_filter]
  congr 2
  apply List.filter_congr
  intro record _
  simp [Bool.and_comm]

/-- What a record draws: a switch on the tracks of the cores, and a user record on its own thread
and on groups. -/
theorem stepRecord_drawn {job : Job} {p : Progress} {record : Record} {d : Drawn}
    (hd : d ∈ (job.stepRecord p record).drawn) :
    match record with
    | .switch _ => d.origin = .schedule ∨ d.origin = .usage
    | .user u =>
      d.origin = .user ∧ (∃ tracepoint, d.event ∈ u.userEvents tracepoint) ∨
      d.origin = .group ∧ ∃ tracepoint, d.event ∈ u.groupEvents job.groups tracepoint := by
  cases record with
  | switch s =>
    simp only [stepRecord, stepSwitch] at hd
    split at hd
    · simp at hd
    · split at hd
      · exact .inl (Drawn.mem_of.mp hd).1
      · rcases List.mem_append.mp hd with hd | husage
        · rcases List.mem_append.mp hd with hended | hbegun
          · exact .inl (Drawn.mem_of.mp hended).1
          · exact .inl (Drawn.mem_of.mp hbegun).1
        · exact .inr (Drawn.mem_of.mp husage).1
  | user u =>
    simp only [stepRecord, stepUser] at hd
    split at hd
    · simp at hd
    · simp only [drawUser] at hd
      split at hd
      · simp at hd
      · rcases List.mem_append.mp hd with huser | hgroup
        · obtain ⟨ho, he⟩ := Drawn.mem_of.mp huser
          split at he
          · exact .inl ⟨ho, _, he⟩
          · simp at he
        · obtain ⟨ho, he⟩ := Drawn.mem_of.mp hgroup
          split at he
          · exact .inr ⟨ho, _, he⟩
          · simp at he

/-- Only user records draw on the user view, each on its own thread. -/
theorem mem_draws_user {job : Job} {records : List Record} {d : Drawn}
    (hd : d ∈ job.draws job.start records) (ho : d.origin = .user) :
    ∃ u, .user u ∈ records ∧ d.event.pid = u.header.pid ∧ d.event.tid = some u.header.tid := by
  obtain ⟨before, record, hp, hd⟩ := mem_draws hd
  have hrecord : record ∈ records := hp.subset (by simp)
  have hdrawn := stepRecord_drawn hd
  cases record with
  | switch s => simp [ho] at hdrawn
  | user u =>
    simp only [ho, true_and, reduceCtorEq, false_and, or_false] at hdrawn
    obtain ⟨tracepoint, he⟩ := hdrawn
    exact ⟨u, hrecord, UserRecord.userEvents_track he⟩

/-- What records draw are neither names nor reference counters. -/
theorem origin_of_mem_draws {job : Job} {records : List Record} {d : Drawn}
    (hd : d ∈ job.draws job.start records) : d.origin ∈ [.user, .group, .schedule, .usage] := by
  obtain ⟨before, record, -, hd⟩ := mem_draws hd
  have hdrawn := stepRecord_drawn hd
  cases record with
  | switch s => rcases hdrawn with ho | ho <;> simp [ho]
  | user u => rcases hdrawn with ⟨ho, -⟩ | ⟨ho, -⟩ <;> simp [ho]

theorem not_naming_of_mem_draws {job : Job} {records : List Record} {d : Drawn}
    (hd : d ∈ job.draws job.start records) (view : View) : d.origin ≠ .naming view := by
  intro ho
  simpa [ho] using origin_of_mem_draws hd

/-- What follows the last record are the names of tracks and the reference counters. -/
theorem mem_closing {job : Job} {p : Progress} {d : Drawn} :
    d ∈ job.closing p ↔
      (job.views.user = true ∧ d.origin = .naming .user ∧ d.event ∈ userNames p) ∨
      (job.views.cpu = true ∧
        (d.origin = .naming .cpu ∧ (d.event ∈ coreNames p ∨ d.event ∈ scheduleNames p) ∨
          d.origin = .reference ∧ d.event ∈ p.load.referenceEvents)) ∨
      (job.views.group = true ∧ d.origin = .naming .group ∧ d.event ∈ job.groupNames p) := by
  simp only [closing, List.mem_append, List.mem_ite_nil_right, Drawn.mem_of, or_assoc, and_or_left]
  grind

theorem origin_of_mem_closing {job : Job} {p : Progress} {d : Drawn} (hd : d ∈ job.closing p) :
    d.origin = .reference ∨ ∃ view, d.origin = .naming view := by
  rcases mem_closing.mp hd with ⟨-, ho, -⟩ | ⟨-, ⟨ho, -⟩ | ⟨ho, -⟩⟩ | ⟨-, ho, -⟩
  · exact .inr ⟨.user, ho⟩
  · exact .inr ⟨.cpu, ho⟩
  · exact .inl ho
  · exact .inr ⟨.group, ho⟩

/-- An element that is neither is drawn by a record. -/
theorem not_mem_closing {job : Job} {p : Progress} {d : Drawn} (hreference : d.origin ≠ .reference)
    (hnaming : ∀ view, d.origin ≠ .naming view) : d ∉ job.closing p := by
  intro hd
  rcases origin_of_mem_closing hd with ho | ⟨view, ho⟩
  · exact hreference ho
  · exact hnaming view ho

theorem not_user_of_mem_closing {job : Job} {p : Progress} {d : Drawn} (hd : d ∈ job.closing p) :
    d.origin ≠ .user := by
  intro ho
  exact not_mem_closing (by simp [ho]) (by simp [ho]) hd

theorem mem_closing_user {job : Job} (p : Progress) (huser : job.views.user = true) {e : Event} :
    ⟨.naming .user, e⟩ ∈ job.closing p ↔ e ∈ userNames p := by
  simp [mem_closing, huser]

/-- The names of the user view stand at the end of a conversion that succeeds. -/
theorem mem_convert_userNames {job : Job} {log : List Text} {finished : Finished}
    (huser : job.views.user = true) (hok : (job.convert log).result = .ok finished) {e : Event} :
    ⟨.naming .user, e⟩ ∈ (job.convert log).drawn ↔
      e ∈ userNames (job.after (Log.records job.clock log)) := by
  rw [(convert_drawn hok).2, ← mem_closing_user _ huser]
  constructor
  · intro h
    rcases List.mem_append.mp h with hdraw | hclosing
    · exact absurd rfl (not_naming_of_mem_draws hdraw .user)
    · exact hclosing
  · exact List.mem_append_right _

theorem mem_userNames_processName (p : Progress) (pid : ProcessId) (process : Text) :
    Event.processName pid process ∈ userNames p ↔ (pid, process) ∈ p.names.processes := by
  unfold userNames
  constructor
  · intro h
    rcases List.mem_append.mp h with hprocess | hthread
    · obtain ⟨⟨pid', process'⟩, hm, he⟩ := List.mem_map.mp hprocess
      obtain ⟨rfl, -, rfl⟩ := Event.label_of_nameRecord he
      exact hm
    · obtain ⟨⟨pid', tid, label⟩, hm, he⟩ := List.mem_map.mp hthread
      exact absurd (Event.label_of_nameRecord he).2.1 (by simp)
  · intro h
    exact List.mem_append_left _ (List.mem_map.mpr ⟨(pid, process), h, rfl⟩)

theorem mem_userNames_threadName (p : Progress) (pid : ProcessId) (tid : ThreadId) (label : Text) :
    Event.threadName pid tid label ∈ userNames p ↔ (pid, tid, label) ∈ p.names.threadLabels := by
  unfold userNames
  constructor
  · intro h
    rcases List.mem_append.mp h with hprocess | hthread
    · obtain ⟨⟨pid', process⟩, hm, he⟩ := List.mem_map.mp hprocess
      exact absurd (Event.label_of_nameRecord he).2.1 (by simp)
    · obtain ⟨⟨pid', tid', label'⟩, hm, he⟩ := List.mem_map.mp hthread
      obtain ⟨rfl, ht, rfl⟩ := Event.label_of_nameRecord he
      obtain rfl := Option.some.inj ht
      exact hm
  · intro h
    exact List.mem_append_right _ (List.mem_map.mpr ⟨(pid, tid, label), h, rfl⟩)

section

variable {p : Progress} {e : Event}

theorem coreNames_pid (h : e ∈ coreNames p) : e.pid = corePid := by
  rcases List.mem_cons.mp h with rfl | h
  · rfl
  · rcases List.mem_append.mp h with hcore | htotal
    · obtain ⟨core, -, rfl⟩ := List.mem_map.mp hcore
      rfl
    · obtain rfl := List.mem_singleton.mp htotal
      rfl

theorem scheduleNames_pid (h : e ∈ scheduleNames p) : e.pid = schedulePid := by
  rcases List.mem_cons.mp h with rfl | hthread
  · rfl
  · obtain ⟨entry, -, rfl⟩ := List.mem_map.mp hthread
    rfl

end

end Job
end TraceReport
