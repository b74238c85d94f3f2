import TraceReport.Proofs.Conversion.Naming
import TraceReport.Proofs.Record

namespace TraceReport

/-- A switch of a log is about one id. -/
theorem Log.switch_pid_eq_tid {clock : Clock} {log : List Text} {s : Switch}
    (h : .switch s ∈ Log.records clock log) : s.header.pid = s.header.tid := by
  obtain ⟨raw, -, hraw⟩ := Log.mem_records.mp h
  obtain ⟨dialect, tokens, hread⟩ := Line.read_of_record hraw
  unfold Record.read at hread
  split at hread
  · obtain ⟨s', hswitch, heq⟩ := map_eq_ok_iff.mp hread
    cases heq
    exact Switch.read_pid_eq_tid hswitch
  · obtain ⟨s', -, heq⟩ := map_eq_ok_iff.mp hread
    cases heq
  · obtain ⟨b, -, heq⟩ := map_eq_ok_iff.mp hread
    cases heq

namespace Job

/-- A thread is named under the process of the last record about it, and only there. -/
theorem threadName_iff {job : Job} {log : List Text} {finished : Finished}
    (huser : job.views.user = true) (hok : (job.convert log).result = .ok finished)
    (pid : ProcessId) (tid : ThreadId) :
    (∃ label, ⟨.naming .user, .threadName pid tid label⟩ ∈ (job.convert log).drawn) ↔
      ∃ record, job.lastAbout tid (Log.records job.clock log) = some record ∧
        record.header.pid = pid := by
  simp only [mem_convert_userNames huser hok, mem_userNames_threadName, after_names,
    TrackNames.mem_threadLabels_iff, lastOn_eq, Option.map_eq_some_iff]
  constructor
  · rintro ⟨-, ⟨record, hr, rfl⟩, hp⟩
    exact ⟨record, hr, hp⟩
  · rintro ⟨record, hr, hp⟩
    exact ⟨record.header.note, ⟨record, hr, rfl⟩, hp⟩

/-- A process is named when some record names it. -/
theorem processName_iff {job : Job} {log : List Text} {finished : Finished}
    (huser : job.views.user = true) (hok : (job.convert log).result = .ok finished)
    (pid : ProcessId) :
    (∃ process, ⟨.naming .user, .processName pid process⟩ ∈ (job.convert log).drawn) ↔
      ∃ record ∈ Log.records job.clock log, job.notes record = true ∧
        record.header.note.isIdle = false ∧ record.header.pid = pid := by
  simp only [mem_convert_userNames huser hok, mem_userNames_processName, after_names,
    TrackNames.mem_processes_iff]
  constructor
  · intro h
    obtain ⟨n, hn⟩ := Option.isSome_iff_exists.mp h
    obtain ⟨hm, hp⟩ := Note.of_last_eq_some hn
    obtain ⟨record, hr, rfl⟩ := List.mem_map.mp hm
    obtain ⟨hlog, hnotes⟩ := List.mem_filter.mp hr
    have hspec : record.header.note.isIdle = false ∧ record.header.pid = pid := by
      simpa [Header.note] using hp
    exact ⟨record, hlog, hnotes, hspec⟩
  · rintro ⟨record, hlog, hnotes, hidle, hpid⟩
    have hm : record.header.note ∈
        ((Log.records job.clock log).filter job.notes).map fun record => record.header.note :=
      List.mem_map.mpr ⟨record, List.mem_filter.mpr ⟨hlog, hnotes⟩, rfl⟩
    obtain ⟨n, hn⟩ := Note.exists_last (p := fun n => !n.isIdle && n.pid == pid) hm (by
      simp [hidle, hpid])
    exact Option.isSome_iff_exists.mpr ⟨n, hn⟩

theorem lastAbout_spec {job : Job} {tid : ThreadId} {records : List Record} {record : Record}
    (h : job.lastAbout tid records = some record) :
    record ∈ records ∧ job.notes record = true ∧ record.header.note.isIdle = false ∧
      record.header.tid = tid := by
  have hm := List.mem_filter.mp (List.mem_of_getLast? h)
  refine ⟨hm.1, ?_⟩
  simpa using hm.2

theorem exists_lastAbout {job : Job} {tid : ThreadId} {records : List Record} {record : Record}
    (hm : record ∈ records) (hnotes : job.notes record = true)
    (hidle : record.header.note.isIdle = false) (htid : record.header.tid = tid) :
    ∃ last, job.lastAbout tid records = some last := by
  have hfilter : record ∈ records.filter fun record => job.notes record &&
      (!record.header.note.isIdle && record.header.tid == tid) :=
    List.mem_filter.mpr ⟨hm, by simp [hnotes, hidle, htid]⟩
  exact ⟨_, List.getLast?_eq_some_getLast (List.ne_nil_of_mem hfilter)⟩

/-- Every event of the user view is on a track that has its names, as long as the thread keeps to
one process and not all its records are of an idle task; but a later switch takes the thread to the
process of its own id. -/
theorem user_tracks_named {job : Job} {log : List Text} {finished : Finished} {d : Drawn}
    (huser : job.views.user = true) (hok : (job.convert log).result = .ok finished)
    (hd : d ∈ (job.convert log).drawn) (ho : d.origin = .user) :
    let records := Log.records job.clock log
    let pid := d.event.pid
    ∃ tid, d.event.tid = some tid ∧
      ((∀ u ∈ Record.users records, u.header.tid = tid → u.header.pid = pid) →
        (∃ u ∈ Record.users records, u.header.tid = tid ∧ idleThread? u.header.process = none) →
        (∃ process, ⟨.naming .user, .processName pid process⟩ ∈ (job.convert log).drawn) ∧
        ((∃ label, ⟨.naming .user, .threadName pid tid label⟩ ∈ (job.convert log).drawn) ↔
          ∀ s, job.lastAbout tid records = some (.switch s) → pid = tid) ∧
        (job.views.cpu = false →
          ∃ label, ⟨.naming .user, .threadName pid tid label⟩ ∈ (job.convert log).drawn)) := by
  intro records pid
  have hdrawn : d ∈ job.draws job.start records := by
    rw [(convert_drawn hok).2] at hd
    rcases List.mem_append.mp hd with hdraw | hclosing
    · exact hdraw
    · exact absurd ho (not_user_of_mem_closing hclosing)
  obtain ⟨tid, htid⟩ : ∃ tid, d.event.tid = some tid := by
    obtain ⟨own, -, -, htid⟩ := mem_draws_user hdrawn ho
    exact ⟨own.header.tid, htid⟩
  refine ⟨tid, htid, fun hkeeps hbusy => ?_⟩
  obtain ⟨u, hu, hut, hidle⟩ := hbusy
  have hnote : (Record.user u).header.note.isIdle = false := by
    simp [Note.isIdle, Header.note, Record.header, hidle]
  have hprocess : ∃ process,
      ⟨.naming .user, .processName pid process⟩ ∈ (job.convert log).drawn :=
    (processName_iff huser hok _).mpr ⟨.user u, Record.mem_users.mp hu, rfl, hnote,
      hkeeps u hu hut⟩
  obtain ⟨last, hlast⟩ := exists_lastAbout (Record.mem_users.mp hu) rfl hnote hut
  obtain ⟨hmem, hnotes, -, hlt⟩ := lastAbout_spec hlast
  have hthread := threadName_iff huser hok pid last.header.tid
  rw [hlt, hlast] at hthread
  simp only [Option.some.injEq, exists_eq_left'] at hthread
  cases last with
  | user v =>
    have hpid := hkeeps v (Record.mem_users.mpr hmem) hlt
    refine ⟨hprocess, ⟨fun _ s hs => ?_, fun _ => hthread.mpr hpid⟩, fun _ => hthread.mpr hpid⟩
    simp [hs] at hlast
  | switch s =>
    have hone : s.header.pid = tid := (Log.switch_pid_eq_tid hmem).trans hlt
    refine ⟨hprocess, ⟨fun h s' hs => ?_, fun h => hthread.mpr ?_⟩, fun hcpu => ?_⟩
    · exact (hthread.mp h).symm.trans hone
    · exact hone.trans (h s hlast).symm
    · simp [notes, hcpu] at hnotes

def userLine (process : String) : Text :=
  ("[10.000100000] (+0.000001000) host pmtrace:message: \x7b cpu_id = 0 \x7d, ".toList ++
    "\x7b procname = \"".toList ++ process.toList ++
    "\", vpid = 100, vtid = 101 \x7d, \x7b text = \"a\", level = 2 \x7d\n".toList)

def switchLine : Text :=
  ("[10.000200000] (+0.000001000) host sched_switch: \x7b cpu_id = 0 \x7d, ".toList ++
    "\x7b procname = \"App\", tid = 101 \x7d, ".toList ++
    "\x7b next_comm = \"swapper/0\", next_tid = 0 \x7d\n".toList)

/-- A job that draws the user view, with or without the cores. -/
def userJob (cpu : Bool) : Job where
  settings := ⟨[], true, ⟨false, []⟩, cpu⟩
  views := ⟨true, false, cpu⟩
  processes := none
  clock := ⟨none⟩
  groups := .none
  cores := 1
  periodMicros := 10000
  keep := false

/-- Without cores a switch names nothing. -/
theorem user_tracks_named_without_cores :
    let job := userJob false
    let log := [userLine "App", switchLine]
    job.views.user = true ∧
    ∃ d finished, (job.convert log).result = .ok finished ∧ d ∈ (job.convert log).drawn ∧
      d.origin = .user ∧ d.event.pid = 100 ∧
      ∃ label, ⟨.naming .user, .threadName 100 101 label⟩ ∈ (job.convert log).drawn := by
  intro job log
  have hlog : (job.convert log).result.isOk ∧
      (∃ d ∈ (job.convert log).drawn,
        d.origin = .user ∧ d.event.pid = 100 ∧ d.event.tid = some 101) ∧
      (∀ u ∈ Record.users (Log.records job.clock log),
        u.header.tid = 101 → u.header.pid = 100) ∧
      ∃ u ∈ Record.users (Log.records job.clock log),
        u.header.tid = 101 ∧ idleThread? u.header.process = none := by decide +kernel
  obtain ⟨hok, ⟨d, hd, ho, hpid, htid⟩, hkeeps, hbusy⟩ := hlog
  obtain ⟨finished, hresult⟩ := exists_ok_of_isOk hok
  obtain ⟨tid, ht, hnamed⟩ := user_tracks_named rfl hresult hd ho
  obtain rfl := Option.some.inj (ht.symm.trans htid)
  rw [hpid] at hnamed
  exact ⟨rfl, d, finished, hresult, hd, ho, hpid, (hnamed hkeeps hbusy).2.2 rfl⟩

/-- A log that succeeds names every track of the user view whose thread keeps to one process. -/
def UserTracksNamed (job : Job) (log : List Text) : Prop :=
  let drawn := (job.convert log).drawn
  (job.convert log).result.isOk → ∀ d ∈ drawn, d.origin = .user → ∀ tid ∈ d.event.tid,
    (∀ u ∈ Record.users (Log.records job.clock log),
      u.header.tid = tid → u.header.pid = d.event.pid) →
    (∃ name ∈ drawn, name.event.phase = .naming ∧
      name.event.name = "process_name".toList ∧ name.event.pid = d.event.pid) ∧
    ∃ name ∈ drawn, name.event.phase = .naming ∧ name.event.name = "thread_name".toList ∧
      name.event.pid = d.event.pid ∧ name.event.tid = some tid

instance (job : Job) (log : List Text) : Decidable (job.UserTracksNamed log) :=
  inferInstanceAs (Decidable (_ → _))

/-- A switch takes a thread to another process, and the name of an idle task is none. -/
theorem user_tracks_unnamed :
    Job.plan (userJob true).settings { Options.new with periodMillis := 10 } = .ok (userJob true) ∧
      (userJob true).views.user = true ∧
      ¬UserTracksNamed (userJob true) [userLine "App", switchLine] ∧
      ¬UserTracksNamed (userJob true) [userLine "swapper"] :=
  ⟨rfl, rfl, by decide +kernel, by decide +kernel⟩

end Job
end TraceReport
