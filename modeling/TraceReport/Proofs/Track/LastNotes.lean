import Mathlib.Data.List.Sort
import TraceReport.Proofs.Numeral
import TraceReport.Proofs.Track.Names

namespace TraceReport

/-- What is read without a minus sign is no negative number. -/
theorem Numeral.integer?_nonneg {t : Text} {n : Int} (h : integer? t = some n)
    (hminus : ∀ digits, Json.Digits digits → t ≠ '-' :: digits) : 0 ≤ n := by
  unfold integer? at h
  split at h
  case h_1 => simp at h
  case h_2 rest hne =>
    obtain ⟨m, hmap, -⟩ := Option.map_eq_some_iff.mp h
    obtain ⟨k, hread, -⟩ := Option.bind_eq_some_iff.mp hmap
    have hdigits := (digits_of_extend (toOption_eq_some_iff.mp hread)).1
    exact absurd rfl (hminus rest ⟨fun hnil => hne (hnil ▸ rfl), hdigits⟩)
  case h_3 =>
    obtain ⟨m, -, rfl⟩ := Option.map_eq_some_iff.mp h
    exact Int.natCast_nonneg m

/-- Lists in ascending order of a key that have the same members are the same. -/
theorem Table.eq_of_ascending {α : Type} {key : α → Int} {a b : List α}
    (ha : a.Pairwise fun x y => key x < key y) (hb : b.Pairwise fun x y => key x < key y)
    (h : ∀ x, x ∈ a ↔ x ∈ b) : a = b := by
  have hirrefl : Std.Irrefl fun x y => key x < key y := ⟨fun x => lt_irrefl (key x)⟩
  have hantisymm : Std.Antisymm fun x y => key x < key y :=
    ⟨fun x y hxy hyx => absurd hyx (lt_asymm hxy)⟩
  exact ha.eq_of_mem_iff hb h

namespace Note

/-- Idle tasks are told by their names. -/
def Idle (n : Note) : Prop := "swapper".toList <+: n.process

instance (n : Note) : Decidable n.Idle :=
  inferInstanceAs (Decidable ("swapper".toList <+: n.process))

theorem isIdle_iff {n : Note} : n.isIdle = true ↔ n.Idle := isSome_idleThread?_iff

theorem isIdle_eq_false_iff {n : Note} : n.isIdle = false ↔ ¬n.Idle := by
  rw [← isIdle_iff, Bool.not_eq_true]

/-- The name of an idle task whose core has a minus sign. -/
def NegativeCore (process : Text) : Prop :=
  ∃ digits, Json.Digits digits ∧ process = "swapper/-".toList ++ digits

/-- The lanes of idle tasks are below all thread ids. -/
theorem lane_neg {n : Note} (h : n.Idle) (hcore : ¬NegativeCore n.process) : n.lane < 0 := by
  obtain ⟨rest, hrest⟩ := h
  have hbegins : "swapper".toList.isPrefixOf? n.process = some rest :=
    List.isPrefixOf?_eq_some_iff_append_eq.mpr hrest
  unfold lane idleThread?
  rw [hbegins]
  split
  case h_1 => simp_all
  case h_2 core heq =>
    obtain rfl := Option.some.inj heq
    have hnonneg : 0 ≤ (Numeral.integer? core).getD 0 := by
      cases hread : Numeral.integer? core with
      | none => exact le_refl 0
      | some m =>
        refine Numeral.integer?_nonneg hread fun digits hdigits hminus => hcore ?_
        exact ⟨digits, hdigits, by rw [← hrest, hminus]; rfl⟩
    have hbelow : -1 - (Numeral.integer? core).getD 0 < 0 := by omega
    exact hbelow
  case h_3 =>
    have hbelow : (-1 : Int) < 0 := by decide
    exact hbelow

/-- The last of the notes with a property. -/
def IsLast (p : Note → Prop) (notes : List Note) (n : Note) : Prop :=
  ∃ before later, notes = before ++ n :: later ∧ p n ∧ ∀ m ∈ later, ¬p m

theorem last_eq_some_iff {p : Note → Bool} {q : Note → Prop} (hpq : ∀ n, p n = true ↔ q n)
    {notes : List Note} {n : Note} : last p notes = some n ↔ IsLast q notes n := by
  rw [last, List.getLast?_filter, List.find?_eq_some_iff_append]
  constructor
  · rintro ⟨hp, later, before, hnotes, hlater⟩
    refine ⟨before.reverse, later.reverse, ?_, (hpq n).mp hp, fun m hm hq => ?_⟩
    · rw [← List.reverse_reverse notes, hnotes]
      simp
    · simpa [(hpq m).mpr hq] using hlater m (List.mem_reverse.mp hm)
  · rintro ⟨before, later, rfl, hq, hlater⟩
    refine ⟨(hpq n).mpr hq, later.reverse, before.reverse, by simp, fun m hm => ?_⟩
    have hnot : ¬p m = true := fun hp => hlater m (List.mem_reverse.mp hm) ((hpq m).mp hp)
    simpa using hnot

theorem exists_last_iff {p : Note → Bool} {q : Note → Prop} (hpq : ∀ n, p n = true ↔ q n)
    {notes : List Note} : (∃ n, last p notes = some n) ↔ ∃ n ∈ notes, q n := by
  constructor
  · rintro ⟨n, hn⟩
    obtain ⟨hnote, hp⟩ := of_last_eq_some hn
    exact ⟨n, hnote, (hpq n).mp hp⟩
  · rintro ⟨n, hnote, hq⟩
    exact exists_last hnote ((hpq n).mpr hq)

theorem isOf_iff (pid : ProcessId) (n : Note) :
    (!n.isIdle && n.pid == pid) = true ↔ ¬n.Idle ∧ n.pid = pid := by
  simp [isIdle_eq_false_iff]

theorem isOn_iff (tid : ThreadId) (n : Note) :
    (!n.isIdle && n.tid == tid) = true ↔ ¬n.Idle ∧ n.tid = tid := by
  simp [isIdle_eq_false_iff]

/-- A note without the property can be left out. -/
theorem last_left_out {p : Note → Bool} {n : Note} (hp : p n = false) (before later : List Note) :
    last p (before ++ n :: later) = last p (before ++ later) := by
  simp [last, hp]

end Note

namespace TrackNames

theorem mem_processes {notes : List Note} {pid : ProcessId} {process : Text} :
    (pid, process) ∈ (after notes).processes ↔
      ∃ n, Note.lastOf pid notes = some n ∧ n.process = process := by
  have hfind := find?_processes pid notes
  constructor
  · intro hm
    rw [Table.find?_eq_some_of_mem (after_ordered notes).processes hm] at hfind
    exact Option.map_eq_some_iff.mp hfind.symm
  · rintro ⟨n, hn, rfl⟩
    rw [hn] at hfind
    exact Table.mem_of_find? hfind

section

variable {notes : List Note} (hcore : ∀ n ∈ notes, ¬Note.NegativeCore n.process)
include hcore

/-- The last note that names a thread is the last one about it. -/
theorem lastNaming_eq_lastOn {tid : ThreadId} (h : 0 ≤ tid) :
    Note.lastNaming tid notes = Note.lastOn tid notes := by
  have halike : ∀ n ∈ notes, (n.lane == tid) = (!n.isIdle && n.tid == tid) := by
    intro n hn
    cases hidle : n.isIdle with
    | true =>
      have hneg : n.lane < 0 := Note.lane_neg (Note.isIdle_iff.mp hidle) (hcore n hn)
      have hne : n.lane ≠ tid := Int.ne_of_lt (hneg.trans_le h)
      simpa using hne
    | false =>
      have hnone : idleThread? n.process = none := by simpa [Note.isIdle] using hidle
      simp [Note.lane, hnone]
  rw [Note.lastNaming, Note.lastOn, Note.last, Note.last, List.filter_congr halike]

variable (htid : ∀ n ∈ notes, 0 ≤ n.tid)
include htid

theorem lastNaming_of_lastOn {tid : ThreadId} {n : Note} (hn : Note.lastOn tid notes = some n) :
    Note.lastNaming tid notes = some n := by
  obtain ⟨hnote, hp⟩ := Note.of_last_eq_some hn
  simp only [Bool.and_eq_true, beq_iff_eq] at hp
  rw [lastNaming_eq_lastOn hcore (hp.2 ▸ htid n hnote), hn]

/-- A thread goes by the name, and belongs to the process, of the last note about it. -/
theorem mem_threadLabels {pid : ProcessId} {tid : ThreadId} {text : Text} :
    (pid, tid, text) ∈ (after notes).threadLabels ↔
      ∃ n, Note.lastOn tid notes = some n ∧ n.pid = pid ∧ text = label n.process tid := by
  have howner := find?_owners tid notes
  have hthread := find?_threads tid notes
  constructor
  · intro hm
    obtain ⟨⟨t, process⟩, hentry, he⟩ := List.mem_filterMap.mp hm
    obtain ⟨owner, ho, heq⟩ := Option.map_eq_some_iff.mp he
    cases heq
    rw [ho] at howner
    obtain ⟨n, hn, hpid⟩ := Option.map_eq_some_iff.mp howner.symm
    rw [Table.find?_eq_some_of_mem (after_ordered notes).threads hentry,
      lastNaming_of_lastOn hcore htid hn] at hthread
    exact ⟨n, hn, hpid, by rw [Option.some.inj hthread]⟩
  · rintro ⟨n, hn, rfl, rfl⟩
    rw [lastNaming_of_lastOn hcore htid hn] at hthread
    rw [hn] at howner
    exact List.mem_filterMap.mpr ⟨(tid, n.process), Table.mem_of_find? hthread,
      congrArg (Option.map _) howner⟩

end

/-- Notes about idle tasks change neither list. -/
theorem idle_left_out {before later : List Note} {n : Note}
    (hcore : ∀ m ∈ before ++ n :: later, ¬Note.NegativeCore m.process)
    (htid : ∀ m ∈ before ++ n :: later, 0 ≤ m.tid) (hidle : n.Idle) :
    (after (before ++ later)).processes = (after (before ++ n :: later)).processes ∧
      (after (before ++ later)).threadLabels = (after (before ++ n :: later)).threadLabels := by
  have hfewer : ∀ m ∈ before ++ later, m ∈ before ++ n :: later := fun m hm =>
    (List.sublist_cons_self n later).append_left before |>.subset hm
  have hcore' : ∀ m ∈ before ++ later, ¬Note.NegativeCore m.process := fun m hm =>
    hcore m (hfewer m hm)
  have htid' : ∀ m ∈ before ++ later, 0 ≤ m.tid := fun m hm => htid m (hfewer m hm)
  have hflag : n.isIdle = true := Note.isIdle_iff.mpr hidle
  constructor
  · refine Table.eq_of_ascending (after_ordered _).processes (after_ordered _).processes ?_
    rintro ⟨pid, process⟩
    rw [mem_processes, mem_processes, Note.lastOf, Note.last_left_out (by simp [hflag])]
  · refine Table.eq_of_ascending (after_ordered _).threadLabels_pairwise
      (after_ordered _).threadLabels_pairwise ?_
    rintro ⟨pid, tid, text⟩
    rw [mem_threadLabels hcore' htid', mem_threadLabels hcore htid, Note.lastOn,
      Note.last_left_out (by simp [hflag])]

/-- After any notes, of no idle task with a negative core and of no negative threads, the processes
are listed in ascending order, each under the name of the last note about it, and so are the
threads, each under name and process of the last note about it; notes about idle tasks change
neither list, wherever they stand. -/
theorem names_of_last_notes (notes : List Note)
    (hcore : ∀ n ∈ notes, ¬Note.NegativeCore n.process) (htid : ∀ n ∈ notes, 0 ≤ n.tid) :
    let names := after notes
    (names.processes.Pairwise (fun a b => a.1 < b.1) ∧
      (∀ pid, pid ∈ names.processes.map Prod.fst ↔ ∃ n ∈ notes, ¬n.Idle ∧ n.pid = pid) ∧
      ∀ pid process, (pid, process) ∈ names.processes ↔
        ∃ n, Note.IsLast (fun m => ¬m.Idle ∧ m.pid = pid) notes n ∧ n.process = process) ∧
    (names.threadLabels.Pairwise (fun a b => a.2.1 < b.2.1) ∧
      (∀ tid, tid ∈ names.threadLabels.map (fun entry => entry.2.1) ↔
        ∃ n ∈ notes, ¬n.Idle ∧ n.tid = tid) ∧
      ∀ pid tid text, (pid, tid, text) ∈ names.threadLabels ↔
        ∃ n, Note.IsLast (fun m => ¬m.Idle ∧ m.tid = tid) notes n ∧ n.pid = pid ∧
          text = n.process ++ '(' :: Numeral.signed tid ++ [')']) ∧
    ∀ before n later, notes = before ++ n :: later → n.Idle →
      (after (before ++ later)).processes = names.processes ∧
        (after (before ++ later)).threadLabels = names.threadLabels := by
  intro names
  refine ⟨⟨(after_ordered notes).processes, fun pid => ?_, fun pid process => ?_⟩,
    ⟨(after_ordered notes).threadLabels_pairwise, fun tid => ?_, fun pid tid text => ?_⟩, ?_⟩
  · rw [← Note.exists_last_iff (Note.isOf_iff pid), List.mem_map]
    constructor
    · rintro ⟨⟨_, process⟩, hm, rfl⟩
      obtain ⟨n, hn, -⟩ := mem_processes.mp hm
      exact ⟨n, hn⟩
    · rintro ⟨n, hn⟩
      exact ⟨(pid, n.process), mem_processes.mpr ⟨n, hn, rfl⟩, rfl⟩
  · simp only [← Note.last_eq_some_iff (Note.isOf_iff pid)]
    exact mem_processes
  · rw [← Note.exists_last_iff (Note.isOn_iff tid), List.mem_map]
    constructor
    · rintro ⟨⟨pid, _, text⟩, hm, rfl⟩
      obtain ⟨n, hn, -⟩ := (mem_threadLabels hcore htid).mp hm
      exact ⟨n, hn⟩
    · rintro ⟨n, hn⟩
      exact ⟨(n.pid, tid, _), (mem_threadLabels hcore htid).mpr ⟨n, hn, rfl, rfl⟩, rfl⟩
  · simp only [← Note.last_eq_some_iff (Note.isOn_iff tid)]
    exact mem_threadLabels hcore htid
  · rintro before n later rfl hidle
    exact idle_left_out hcore htid hidle

/-- A thread that changes its process, between notes about idle tasks. -/
def reusedThread : List Note :=
  [⟨['A'], 10, 11⟩, ⟨"swapper/1".toList, 10, 11⟩, ⟨['B'], 20, 11⟩, ⟨"swapper".toList, 20, 11⟩,
    ⟨['C'], 10, 12⟩]

/-- The thread goes by the later name, and its first process by that of the last note about it. -/
theorem names_of_last_notes_reused :
    (∀ n ∈ reusedThread, ¬Note.NegativeCore n.process) ∧ (∀ n ∈ reusedThread, 0 ≤ n.tid) ∧
    (10, ['C']) ∈ (after reusedThread).processes ∧
    (20, 11, "B(11)".toList) ∈ (after reusedThread).threadLabels ∧
    (after (reusedThread.eraseIdx 1)).threadLabels = (after reusedThread).threadLabels := by
  have hcore : ∀ n ∈ reusedThread, ¬Note.NegativeCore n.process := by
    have hstart : ∀ n ∈ reusedThread, n.process.take 9 ≠ "swapper/-".toList := by decide
    rintro n hn ⟨digits, -, hname⟩
    exact hstart n hn (by rw [hname]; rfl)
  have htid : ∀ n ∈ reusedThread, 0 ≤ n.tid := by decide
  obtain ⟨⟨-, -, hprocess⟩, ⟨-, -, hthread⟩, hidle⟩ := names_of_last_notes reusedThread hcore htid
  refine ⟨hcore, htid, (hprocess 10 ['C']).mpr ?_, (hthread 20 11 "B(11)".toList).mpr ?_, ?_⟩
  · exact ⟨⟨['C'], 10, 12⟩, ⟨reusedThread.take 4, [], by decide, by decide, by simp⟩, rfl⟩
  · exact ⟨⟨['B'], 20, 11⟩, ⟨reusedThread.take 2, reusedThread.drop 3, by decide, by decide,
      by decide⟩, rfl, by decide⟩
  · exact (hidle [⟨['A'], 10, 11⟩] ⟨"swapper/1".toList, 10, 11⟩ _ rfl (by decide)).2

end TrackNames
end TraceReport
