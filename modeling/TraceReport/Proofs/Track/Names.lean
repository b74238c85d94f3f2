import Mathlib.Data.List.Induction
import Mathlib.Tactic.SplitIfs
import TraceReport.Proofs.Table
import TraceReport.Track.Names

namespace TraceReport

/-- Idle tasks are told by their names. -/
theorem isSome_idleThread?_iff {process : Text} :
    (idleThread? process).isSome = true ↔ "swapper".toList <+: process := by
  rw [← List.isPrefixOf_iff_prefix, ← List.isSome_isPrefixOf?_eq_isPrefixOf]
  unfold idleThread?
  cases "swapper".toList.isPrefixOf? process with
  | none => simp
  | some rest => split <;> simp_all

/-- What is noted of a record: its process, by name and id, and its thread. -/
structure Note where
  process : Text
  pid : ProcessId
  tid : ThreadId
  deriving DecidableEq, Repr

namespace Note

def isIdle (n : Note) : Bool := (idleThread? n.process).isSome

/-- The thread a note gives its name to. -/
def lane (n : Note) : ThreadId := (idleThread? n.process).getD n.tid

def last (p : Note → Bool) (notes : List Note) : Option Note := (notes.filter p).getLast?

/-- The last note that names a process. -/
def lastOf (pid : ProcessId) : List Note → Option Note := last fun n => !n.isIdle && n.pid == pid

/-- The last note about a thread, which tells the process it belongs to. -/
def lastOn (tid : ThreadId) : List Note → Option Note := last fun n => !n.isIdle && n.tid == tid

/-- The last note that names a thread; idle tasks name their lanes too. -/
def lastNaming (tid : ThreadId) : List Note → Option Note := last fun n => n.lane == tid

theorem last_append (p : Note → Bool) (notes : List Note) (n : Note) :
    last p (notes ++ [n]) = if p n then some n else last p notes := by
  rw [last, List.filter_append]
  by_cases hp : p n = true
  · simp [hp]
  · simp [last, hp]

section

variable (notes : List Note) (n : Note)

@[simp] theorem lastOf_append (pid : ProcessId) :
    lastOf pid (notes ++ [n]) =
      if n.isIdle = false ∧ n.pid = pid then some n else lastOf pid notes := by
  simp [lastOf, last_append]

@[simp] theorem lastOn_append (tid : ThreadId) :
    lastOn tid (notes ++ [n]) =
      if n.isIdle = false ∧ n.tid = tid then some n else lastOn tid notes := by
  simp [lastOn, last_append]

@[simp] theorem lastNaming_append (tid : ThreadId) :
    lastNaming tid (notes ++ [n]) = if n.lane = tid then some n else lastNaming tid notes := by
  simp [lastNaming, last_append]

end

theorem of_last_eq_some {p : Note → Bool} {notes : List Note} {n : Note}
    (h : last p notes = some n) : n ∈ notes ∧ p n = true :=
  List.mem_filter.mp (List.mem_of_getLast? h)

theorem exists_last {p : Note → Bool} {notes : List Note} {n : Note} (hn : n ∈ notes)
    (hp : p n = true) : ∃ m, last p notes = some m := by
  have hne : notes.filter p ≠ [] := List.ne_nil_of_mem (List.mem_filter.mpr ⟨hn, hp⟩)
  exact ⟨_, List.getLast?_eq_some_getLast hne⟩

end Note

namespace TrackNames

/-- The names after all notes. -/
def after (notes : List Note) : TrackNames :=
  notes.foldl (fun names n => names.note n.process n.pid n.tid) .empty

theorem after_append (notes : List Note) (n : Note) :
    after (notes ++ [n]) = (after notes).note n.process n.pid n.tid := by
  rw [after, List.foldl_append]
  rfl

section

variable (names : TrackNames) (n : Note)

theorem note_idle (h : n.isIdle = true) :
    names.note n.process n.pid n.tid =
      { names with threads := names.threads.insert n.lane n.process } := by
  unfold Note.isIdle at h
  unfold note Note.lane
  cases hi : idleThread? n.process with
  | none => simp [hi] at h
  | some idle => rfl

theorem note_busy (h : n.isIdle = false) :
    names.note n.process n.pid n.tid = {
      processes := names.processes.insert n.pid n.process
      threads := names.threads.insert n.lane n.process
      owners := names.owners.insert n.tid n.pid } := by
  unfold Note.isIdle at h
  unfold note Note.lane
  cases hi : idleThread? n.process with
  | none => rfl
  | some idle => simp [hi] at h

theorem note_threads :
    (names.note n.process n.pid n.tid).threads = names.threads.insert n.lane n.process := by
  cases h : n.isIdle with
  | true => rw [note_idle names n h]
  | false => rw [note_busy names n h]

end

theorem find?_processes (pid : ProcessId) (notes : List Note) :
    (after notes).processes.find? pid = (Note.lastOf pid notes).map (·.process) := by
  induction notes using List.reverseRecOn with
  | nil => rfl
  | append_singleton before n ih =>
    rw [after_append, Note.lastOf_append]
    cases h : n.isIdle with
    | true =>
      rw [note_idle _ n h]
      simpa [h] using ih
    | false =>
      rw [note_busy _ n h]
      by_cases hp : n.pid = pid
      · simp [hp]
      · rw [Table.find?_insert_of_ne (fun he => hp he.symm)]
        simpa [h, hp] using ih

theorem find?_owners (tid : ThreadId) (notes : List Note) :
    (after notes).owners.find? tid = (Note.lastOn tid notes).map (·.pid) := by
  induction notes using List.reverseRecOn with
  | nil => rfl
  | append_singleton before n ih =>
    rw [after_append, Note.lastOn_append]
    cases h : n.isIdle with
    | true =>
      rw [note_idle _ n h]
      simpa [h] using ih
    | false =>
      rw [note_busy _ n h]
      by_cases ht : n.tid = tid
      · simp [ht]
      · rw [Table.find?_insert_of_ne (fun he => ht he.symm)]
        simpa [h, ht] using ih

theorem find?_threads (tid : ThreadId) (notes : List Note) :
    (after notes).threads.find? tid = (Note.lastNaming tid notes).map (·.process) := by
  induction notes using List.reverseRecOn with
  | nil => rfl
  | append_singleton before n ih =>
    rw [after_append, note_threads, Note.lastNaming_append]
    by_cases hl : n.lane = tid
    · simp [hl]
    · rw [Table.find?_insert_of_ne (fun he => hl he.symm)]
      simpa [hl] using ih

/-- Every table has its keys in order. -/
structure Ordered (names : TrackNames) : Prop where
  processes : Table.Ordered names.processes
  threads : Table.Ordered names.threads
  owners : Table.Ordered names.owners

theorem Ordered.note {names : TrackNames} (h : names.Ordered) (n : Note) :
    (names.note n.process n.pid n.tid).Ordered := by
  cases hi : n.isIdle with
  | true =>
    rw [note_idle names n hi]
    exact ⟨h.processes, Table.ordered_insert _ _ h.threads, h.owners⟩
  | false =>
    rw [note_busy names n hi]
    exact ⟨Table.ordered_insert _ _ h.processes, Table.ordered_insert _ _ h.threads,
      Table.ordered_insert _ _ h.owners⟩

theorem after_ordered (notes : List Note) : (after notes).Ordered := by
  induction notes using List.reverseRecOn with
  | nil => exact ⟨List.Pairwise.nil, List.Pairwise.nil, List.Pairwise.nil⟩
  | append_singleton before n ih =>
    rw [after_append]
    exact ih.note n

theorem Ordered.threadLabels_pairwise {names : TrackNames} (h : names.Ordered) :
    names.threadLabels.Pairwise fun a b => a.2.1 < b.2.1 := by
  refine List.Pairwise.filterMap _ ?_ h.threads
  rintro ⟨tid, process⟩ ⟨tid', process'⟩ hlt entry hentry other hother
  obtain ⟨pid, -, rfl⟩ := Option.map_eq_some_iff.mp hentry
  obtain ⟨pid', -, rfl⟩ := Option.map_eq_some_iff.mp hother
  exact hlt

/-- A process is named when some note names it. -/
theorem mem_processes_iff (notes : List Note) (pid : ProcessId) :
    (∃ process, (pid, process) ∈ (after notes).processes) ↔ (Note.lastOf pid notes).isSome := by
  have hfind := find?_processes pid notes
  constructor
  · rintro ⟨process, hm⟩
    rw [Table.find?_eq_some_of_mem (after_ordered notes).processes hm] at hfind
    have hsome := congrArg Option.isSome hfind
    simpa using hsome.symm
  · intro h
    obtain ⟨n, hn⟩ := Option.isSome_iff_exists.mp h
    rw [hn] at hfind
    exact ⟨n.process, Table.mem_of_find? hfind⟩

/-- A thread whose process is known has a name. -/
theorem exists_lastNaming {tid : ThreadId} {notes : List Note} {n : Note}
    (h : Note.lastOn tid notes = some n) : ∃ m, Note.lastNaming tid notes = some m := by
  obtain ⟨hn, hp⟩ := Note.of_last_eq_some h
  have hbusy : idleThread? n.process = none ∧ n.tid = tid := by simpa [Note.isIdle] using hp
  apply Note.exists_last hn
  simp [Note.lane, hbusy]

/-- A thread is labelled under the process of the last note about it, and under no other. -/
theorem mem_threadLabels_iff (notes : List Note) (pid : ProcessId) (tid : ThreadId) :
    (∃ label, (pid, tid, label) ∈ (after notes).threadLabels) ↔
      ∃ n, Note.lastOn tid notes = some n ∧ n.pid = pid := by
  have howner := find?_owners tid notes
  constructor
  · rintro ⟨label, hm⟩
    obtain ⟨⟨t, process⟩, -, he⟩ := List.mem_filterMap.mp hm
    obtain ⟨owner, ho, heq⟩ := Option.map_eq_some_iff.mp he
    cases heq
    rw [ho] at howner
    obtain ⟨n, hn, hpid⟩ := Option.map_eq_some_iff.mp howner.symm
    exact ⟨n, hn, hpid⟩
  · rintro ⟨n, hn, rfl⟩
    have hthread := find?_threads tid notes
    obtain ⟨m, hm⟩ := exists_lastNaming hn
    rw [hm] at hthread
    rw [hn] at howner
    refine ⟨label m.process tid, List.mem_filterMap.mpr ⟨(tid, m.process), ?_, ?_⟩⟩
    · exact Table.mem_of_find? hthread
    · exact congrArg (Option.map _) howner

/-- A thread has one label, if any. -/
theorem filter_threadLabels (notes : List Note) (tid : ThreadId) :
    ∃ label, (after notes).threadLabels.filter (fun entry => entry.2.1 = tid) =
      ((Note.lastOn tid notes).map fun n => (n.pid, tid, label)).toList := by
  have howner := find?_owners tid notes
  have hthread := find?_threads tid notes
  have hkeys : (after notes).threadLabels.filter (fun entry => entry.2.1 = tid) =
      ((after notes).threads.filter fun entry => entry.1 = tid).filterMap fun entry =>
        ((after notes).owners.find? entry.1).map fun pid =>
          (pid, entry.1, label entry.2 entry.1) := by
    rw [threadLabels, List.filter_filterMap, List.filterMap_filter]
    apply List.filterMap_congr
    intro entry _
    obtain ⟨t, process⟩ := entry
    cases ho : (after notes).owners.find? t with
    | none => simp [ho]
    | some pid =>
      by_cases ht : t = tid
      · simp [← ht, ho]
      · simp [ht, ho]
  rw [hkeys, Table.filter_key tid (after_ordered notes).threads, hthread]
  cases hn : Note.lastOn tid notes with
  | none =>
    rw [hn] at howner
    refine ⟨[], ?_⟩
    cases Note.lastNaming tid notes with
    | none => rfl
    | some m => simp [howner]
  | some n =>
    rw [hn] at howner
    obtain ⟨m, hm⟩ := exists_lastNaming hn
    refine ⟨label m.process tid, ?_⟩
    rw [hm]
    simp [howner]

end TrackNames
end TraceReport
