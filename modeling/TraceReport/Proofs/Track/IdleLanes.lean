import TraceReport.Proofs.Track.LastNotes

namespace TraceReport

namespace Numeral

theorem integer?_range {t : Text} {n : Int} (h : integer? t = some n) :
    -signedRange ≤ n ∧ n < signedRange := by
  have hpos : (0 : Int) < signedRange := by decide
  unfold integer? at h
  split at h
  case h_1 => simp at h
  case h_2 rest _ =>
    obtain ⟨m, hvalue, rfl⟩ := Option.map_eq_some_iff.mp h
    obtain ⟨k, hread, hk⟩ := Option.bind_eq_some_iff.mp hvalue
    obtain rfl := Option.some.inj hk
    have hle : k ≤ signedRange := extend_le (Nat.zero_le _) (toOption_eq_some_iff.mp hread)
    omega
  case h_3 =>
    obtain ⟨m, hread, rfl⟩ := Option.map_eq_some_iff.mp h
    have hle : m ≤ signedRange - 1 := natural_le (natural?_eq_some_iff.mp hread)
    rw [Int.ofNat_eq_natCast]
    omega

/-- A number below zero is written with a minus sign. -/
theorem integer?_neg_iff {t : Text} :
    (∃ n, integer? t = some n ∧ n < 0) ↔
      ∃ digits, Json.Digits digits ∧ t = '-' :: digits ∧ 0 < Nat.ofDigitChars 10 digits 0 ∧
        Nat.ofDigitChars 10 digits 0 ≤ signedRange := by
  constructor
  · rintro ⟨n, h, hneg⟩
    unfold integer? at h
    split at h
    case h_1 => simp at h
    case h_2 rest hne =>
      obtain ⟨m, hvalue, rfl⟩ := Option.map_eq_some_iff.mp h
      obtain ⟨k, hread, hk⟩ := Option.bind_eq_some_iff.mp hvalue
      obtain rfl := Option.some.inj hk
      have hok := toOption_eq_some_iff.mp hread
      obtain ⟨hdigits, rfl⟩ := digits_of_extend hok
      have hle := extend_le (Nat.zero_le _) hok
      exact ⟨rest, ⟨fun hnil => hne (hnil ▸ rfl), hdigits⟩, rfl, by omega, hle⟩
    case h_3 =>
      obtain ⟨m, -, rfl⟩ := Option.map_eq_some_iff.mp h
      exact absurd hneg (Int.not_lt.mpr (Int.natCast_nonneg m))
  · rintro ⟨digits, hdigits, rfl, hpos, hle⟩
    obtain ⟨c, rest, rfl⟩ := List.exists_cons_of_ne_nil hdigits.ne_nil
    refine ⟨-(Nat.ofDigitChars 10 (c :: rest) 0 : Int), ?_, by omega⟩
    simp only [integer?, extend_digits hdigits.digit hle, Except.toOption]
    rfl

end Numeral

namespace Note

/-- The core an idle task is named for, zero where its name has no number. -/
def NamesCore (process : Text) (core : Int) : Prop :=
  (∃ text, process = "swapper/".toList ++ text ∧ Numeral.integer? text = some core) ∨
    core = 0 ∧ ∀ text, process = "swapper/".toList ++ text → Numeral.integer? text = none

/-- The name of an idle task with a number below zero. -/
def BelowZero (process : Text) : Prop :=
  ∃ digits, Json.Digits digits ∧ process = "swapper/-".toList ++ digits ∧
    0 < Nat.ofDigitChars 10 digits 0 ∧ Nat.ofDigitChars 10 digits 0 ≤ 2 ^ 63

theorem idleThread?_eq {n : Note} (h : n.Idle) :
    ∃ core, NamesCore n.process core ∧ idleThread? n.process = some (-1 - core) := by
  obtain ⟨rest, hrest⟩ := h
  have hbegins : "swapper".toList.isPrefixOf? n.process = some rest :=
    List.isPrefixOf?_eq_some_iff_append_eq.mpr hrest
  have hafter (text : Text) : n.process = "swapper/".toList ++ text ↔ rest = '/' :: text := by
    have hslash : "swapper/".toList ++ text = "swapper".toList ++ '/' :: text := rfl
    rw [← hrest, hslash, List.append_cancel_left_eq]
  unfold idleThread? NamesCore
  rw [hbegins]
  simp only [hafter]
  split
  case h_1 => simp_all
  case h_2 text heq =>
    obtain rfl := Option.some.inj heq
    cases hread : Numeral.integer? text with
    | none => exact ⟨0, .inr ⟨rfl, by simp [hread]⟩, rfl⟩
    | some core => exact ⟨core, .inl ⟨text, rfl, hread⟩, rfl⟩
  case h_3 other hother heq =>
    obtain rfl := Option.some.inj heq
    exact ⟨0, .inr ⟨rfl, fun text htext => absurd (htext ▸ rfl) (hother text)⟩, rfl⟩

theorem NamesCore.range {process : Text} {core : Int} (h : NamesCore process core) :
    -2 ^ 63 ≤ core ∧ core < 2 ^ 63 := by
  rcases h with ⟨text, -, hread⟩ | ⟨rfl, -⟩
  · exact Numeral.integer?_range hread
  · decide

/-- Within 64 bits a lane is below its core's number, without wrapping. -/
theorem NamesCore.exists_word {process : Text} {core : Int} (h : NamesCore process core) :
    ∃ word : Int64, word.toInt = core ∧ (-1 - word).toInt = -1 - core := by
  obtain ⟨hlow, hhigh⟩ := h.range
  have hword : (Int64.ofInt core).toInt = core := Int64.toInt_ofInt_of_le hlow hhigh
  refine ⟨Int64.ofInt core, hword, ?_⟩
  have hone : (-1 : Int64).toInt = -1 := rfl
  rw [Int64.toInt_sub, hword, hone]
  exact Int.bmod_eq_of_le (by omega) (by omega)

theorem NamesCore.neg_iff {process : Text} {core : Int} (h : NamesCore process core) :
    core < 0 ↔ BelowZero process := by
  have hminus (digits : Text) :
      "swapper/-".toList ++ digits = "swapper/".toList ++ '-' :: digits := rfl
  constructor
  · intro hneg
    rcases h with ⟨text, rfl, hread⟩ | ⟨rfl, -⟩
    · obtain ⟨digits, hdigits, rfl, hpos, hle⟩ := Numeral.integer?_neg_iff.mp ⟨core, hread, hneg⟩
      exact ⟨digits, hdigits, (hminus digits).symm, hpos, hle⟩
    · exact absurd hneg (by decide)
  · rintro ⟨digits, hdigits, hname, hpos, hle⟩
    rw [hminus] at hname
    obtain ⟨n, hn, hneg⟩ := Numeral.integer?_neg_iff.mpr ⟨digits, hdigits, rfl, hpos, hle⟩
    rcases h with ⟨text, htext, hread⟩ | ⟨-, hnone⟩
    · obtain rfl := List.append_cancel_left (htext.symm.trans hname)
      rw [hread] at hn
      rw [Option.some.inj hn]
      exact hneg
    · exact absurd ((hnone _ hname).symm.trans hn) (Option.some_ne_none n).symm

end Note

namespace TrackNames

/-- A thread is labelled that has a name and a process. -/
theorem Ordered.mem_threadLabels_iff {names : TrackNames} (h : names.Ordered) {pid : ProcessId}
    {tid : ThreadId} {text : Text} :
    (pid, tid, text) ∈ names.threadLabels ↔
      names.owners.find? tid = some pid ∧
        ∃ process, names.threads.find? tid = some process ∧ text = label process tid := by
  constructor
  · intro hm
    obtain ⟨⟨t, process⟩, hentry, he⟩ := List.mem_filterMap.mp hm
    obtain ⟨owner, howner, heq⟩ := Option.map_eq_some_iff.mp he
    cases heq
    exact ⟨howner, process, Table.find?_eq_some_of_mem h.threads hentry, rfl⟩
  · rintro ⟨howner, process, hthread, rfl⟩
    exact List.mem_filterMap.mpr ⟨(tid, process), Table.mem_of_find? hthread,
      congrArg (Option.map _) howner⟩

/-- The label of the thread on a lane is written anew. -/
def relabelled (lane : ThreadId) (process : Text) :
    ProcessId × ThreadId × Text → ProcessId × ThreadId × Text
  | (pid, tid, text) => (pid, tid, if tid = lane then label process tid else text)

section

variable {notes : List Note} {n : Note}

/-- A note about an idle task changes at most the label of the thread whose id its lane has. -/
theorem threadLabels_note_idle (hidle : n.Idle) :
    ((after notes).note n.process n.pid n.tid).threadLabels =
      (after notes).threadLabels.map (relabelled n.lane n.process) := by
  have hordered := after_ordered notes
  have hnoted := note_idle (after notes) n (Note.isIdle_iff.mpr hidle)
  have hnamed : ∀ tid pid, (after notes).owners.find? tid = some pid →
      ∃ process, (after notes).threads.find? tid = some process := by
    intro tid pid howner
    rw [find?_owners] at howner
    obtain ⟨m, hm, -⟩ := Option.map_eq_some_iff.mp howner
    obtain ⟨last, hlast⟩ := exists_lastNaming hm
    exact ⟨last.process, by rw [find?_threads, hlast, Option.map_some]⟩
  refine Table.eq_of_ascending (hordered.note n).threadLabels_pairwise ?_ ?_
  · exact hordered.threadLabels_pairwise.map _ fun _ _ hlt => hlt
  rintro ⟨pid, tid, text⟩
  rw [(hordered.note n).mem_threadLabels_iff, hnoted, List.mem_map]
  by_cases htid : tid = n.lane
  · subst htid
    rw [Table.find?_insert_self]
    constructor
    · rintro ⟨howner, process, hprocess, rfl⟩
      obtain rfl := Option.some.inj hprocess
      obtain ⟨old, hold⟩ := hnamed _ _ howner
      exact ⟨(pid, n.lane, label old n.lane),
        hordered.mem_threadLabels_iff.mpr ⟨howner, old, hold, rfl⟩, by simp [relabelled]⟩
    · rintro ⟨⟨pid', tid', text'⟩, hm, heq⟩
      simp only [relabelled, Prod.mk.injEq] at heq
      obtain ⟨rfl, rfl, rfl⟩ := heq
      exact ⟨(hordered.mem_threadLabels_iff.mp hm).1, n.process, rfl, if_pos rfl⟩
  · rw [Table.find?_insert_of_ne htid, ← hordered.mem_threadLabels_iff]
    constructor
    · intro hm
      exact ⟨_, hm, by simp [relabelled, htid]⟩
    · rintro ⟨⟨pid', tid', text'⟩, hm, heq⟩
      simp only [relabelled, Prod.mk.injEq] at heq
      obtain ⟨rfl, rfl, rfl⟩ := heq
      rwa [if_neg htid]

theorem tid_nonneg_of_mem_threadLabels (htid : ∀ m ∈ notes, 0 ≤ m.tid)
    {entry : ProcessId × ThreadId × Text} (h : entry ∈ (after notes).threadLabels) :
    0 ≤ entry.2.1 := by
  obtain ⟨pid, tid, text⟩ := entry
  obtain ⟨m, hm, -⟩ := (mem_threadLabels_iff notes pid tid).mp ⟨text, h⟩
  obtain ⟨hnote, hp⟩ := Note.of_last_eq_some hm
  simp only [Bool.and_eq_true, beq_iff_eq] at hp
  exact hp.2 ▸ htid m hnote

/-- A note about an idle task leaves the processes and the owners of threads as they are, and of
the labels it changes at most that of a thread with the id of its lane. The lane is reckoned within
64 bits. It is below zero, and so apart from the threads, unless the name has a number below
zero. -/
theorem idle_lane_apart (htid : ∀ m ∈ notes, 0 ≤ m.tid) (hidle : n.Idle) :
    let names := after notes
    let noted := names.note n.process n.pid n.tid
    (noted.processes = names.processes ∧ noted.owners = names.owners ∧
      noted.threadLabels = names.threadLabels.map (relabelled n.lane n.process)) ∧
    (∃ core : Int64, Note.NamesCore n.process core.toInt ∧
      idleThread? n.process = some n.lane ∧ n.lane = (-1 - core).toInt ∧
      (-1 - core).toInt = -1 - core.toInt) ∧
    (n.lane < 0 ↔ ¬Note.BelowZero n.process) ∧
    (¬Note.BelowZero n.process → noted.threadLabels = names.threadLabels) := by
  intro names noted
  have hnoted : noted = { names with threads := names.threads.insert n.lane n.process } :=
    note_idle names n (Note.isIdle_iff.mpr hidle)
  have hlabels := @threadLabels_note_idle notes n hidle
  obtain ⟨core, hcore, hread⟩ := Note.idleThread?_eq hidle
  have hlane : n.lane = -1 - core := by rw [Note.lane, hread, Option.getD_some]
  have hbelow : n.lane < 0 ↔ ¬Note.BelowZero n.process := by
    have hsign : -1 - core < 0 ↔ ¬core < 0 := by omega
    rw [hlane, ← hcore.neg_iff]
    exact hsign
  refine ⟨⟨by rw [hnoted], by rw [hnoted], hlabels⟩, ?_, hbelow, fun hname => ?_⟩
  · obtain ⟨word, rfl, hword⟩ := hcore.exists_word
    exact ⟨word, hcore, by rw [hread, hlane], by rw [hword, hlane], hword⟩
  · have hkept : ∀ entry ∈ names.threadLabels, relabelled n.lane n.process entry = entry := by
      intro entry hentry
      have hlow := (hbelow.mpr hname).trans_le (tid_nonneg_of_mem_threadLabels htid hentry)
      simp [relabelled, Int.ne_of_gt hlow]
    rw [hlabels, List.map_congr_left hkept, List.map_id']

end

/-- One thread of a program. -/
def oneThread : List Note := [⟨"App".toList, 4, 4⟩]

/-- The idle task of the highest core there can be. -/
def highestIdle : Note := ⟨"swapper/9223372036854775807".toList, 0, 4⟩

/-- An idle task whose lane has the id of the thread. -/
def misplacedIdle : Note := ⟨"swapper/-5".toList, 0, 0⟩

/-- The lowest lane there is, and one that is a thread's. -/
theorem idle_lane_apart_ends :
    (∀ m ∈ oneThread, 0 ≤ m.tid) ∧ highestIdle.Idle ∧ misplacedIdle.Idle ∧
    ¬Note.BelowZero highestIdle.process ∧
    highestIdle.lane = Int64.minValue.toInt ∧
    ((after oneThread).note highestIdle.process 0 4).threadLabels = [(4, 4, "App(4)".toList)] ∧
    ((after oneThread).note misplacedIdle.process 0 0).threadLabels =
      [(4, 4, "swapper/-5(4)".toList)] := by
  have htid : ∀ m ∈ oneThread, 0 ≤ m.tid := by decide
  have hhighest : highestIdle.Idle := by decide
  have hmisplaced : misplacedIdle.Idle := by decide
  obtain ⟨-, -, hbelow, hkept⟩ := idle_lane_apart htid hhighest
  obtain ⟨⟨-, -, hlabels⟩, -⟩ := idle_lane_apart htid hmisplaced
  have hname : ¬Note.BelowZero highestIdle.process := hbelow.mp (by decide)
  exact ⟨htid, hhighest, hmisplaced, hname, by decide, (hkept hname).trans (by decide),
    hlabels.trans (by decide)⟩

/-- A note about an idle task changes neither processes nor threads, and its lane is below zero. -/
def KeptApart (notes : List Note) (n : Note) : Prop :=
  let names := after notes
  let noted := names.note n.process n.pid n.tid
  noted.processes = names.processes ∧ noted.owners = names.owners ∧
    noted.threadLabels = names.threadLabels ∧ ∀ lane ∈ idleThread? n.process, lane < 0

/-- The thread is called as the idle task. -/
theorem not_keptApart :
    (∀ m ∈ oneThread, 0 ≤ m.pid ∧ 0 ≤ m.tid) ∧ (idleThread? misplacedIdle.process).isSome ∧
      ¬KeptApart oneThread misplacedIdle := by
  refine ⟨by decide, by decide, fun h => ?_⟩
  have hlabels := h.2.2.1
  revert hlabels
  decide

end TrackNames
end TraceReport
