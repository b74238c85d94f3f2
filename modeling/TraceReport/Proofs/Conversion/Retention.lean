import TraceReport.Proofs.Conversion.Accounting
import TraceReport.Proofs.Conversion.IgnoreRules

namespace TraceReport

namespace Record

def signal? : Record → Option Signal
  | .user (.plain s) => some s
  | _ => none

def block? : Record → Option Block
  | .user (.structured b) => some b
  | _ => none

def signals (records : List Record) : List Signal := records.filterMap signal?

def blocks (records : List Record) : List Block := records.filterMap block?

/-- Whether a record outlasts its conversion: a switch if cores are drawn, and a user record unless
some rule matches it. -/
def isKept (settings : Settings) (views : Views) (record : Record) : Bool :=
  match record with
  | .switch _ => views.cpu
  | .user _ => !record.excluded settings.ignoreRules

section

variable (records : List Record) (record : Record)

theorem signals_append :
    signals (records ++ [record]) = signals records ++ record.signal?.toList := by
  rw [signals, List.filterMap_append]
  rfl

theorem blocks_append :
    blocks (records ++ [record]) = blocks records ++ record.block?.toList := by
  rw [blocks, List.filterMap_append]
  rfl

/-- A user record is of one of two kinds. -/
theorem length_users :
    (users records).length = (signals records).length + (blocks records).length := by
  induction records with
  | nil => rfl
  | cons first rest ih =>
    rw [users, signals, blocks] at *
    cases first with
    | switch s => exact ih
    | user u =>
      cases u with
      | plain s =>
        simp only [List.filterMap_cons, user?, signal?, block?, List.length_cons]
        omega
      | structured b =>
        simp only [List.filterMap_cons, user?, signal?, block?, List.length_cons]
        omega

theorem length_kinds : (users records).length + (switches records).length = records.length := by
  induction records with
  | nil => rfl
  | cons first rest ih =>
    rw [users, switches] at *
    cases first <;> simp only [List.filterMap_cons, user?, switch?, List.length_cons] <;> omega

end

section

variable (settings : Settings) (views : Views) (records : List Record)

theorem switches_kept :
    switches (records.filter (isKept settings views)) =
      if views.cpu then switches records else [] := by
  induction records with
  | nil => split_ifs <;> rfl
  | cons first rest ih =>
    rw [List.filter_cons]
    cases first with
    | switch s =>
      cases hcpu : views.cpu with
      | false => simpa [isKept, hcpu] using ih
      | true => simpa [isKept, hcpu, switches, switch?] using ih
    | user u =>
      have hnone (l : List Record) : switches (.user u :: l) = switches l := rfl
      rw [hnone, ← ih]
      split_ifs <;> rfl

/-- A user record is kept or excluded. -/
theorem length_users_kept :
    (users (records.filter (isKept settings views))).length +
      records.countP (excluded settings.ignoreRules) = (users records).length := by
  induction records with
  | nil => rfl
  | cons first rest ih =>
    rw [List.filter_cons, List.countP_cons]
    cases first with
    | switch s =>
      have hnone (l : List Record) : users (.switch s :: l) = users l := rfl
      have hrule : excluded settings.ignoreRules (.switch s) = false := rfl
      rw [hrule, hnone, ← ih, if_neg Bool.false_ne_true]
      split_ifs <;> rfl
    | user u =>
      have hone (l : List Record) : (users (.user u :: l)).length = (users l).length + 1 := rfl
      rw [isKept]
      cases excluded settings.ignoreRules (.user u) with
      | true =>
        rw [Bool.not_true, if_neg Bool.false_ne_true, if_pos rfl, hone]
        omega
      | false =>
        rw [Bool.not_false, if_pos rfl, if_neg Bool.false_ne_true, hone, hone]
        omega

end

end Record

namespace Kept

def add (kept : Kept) : Record → Kept
  | .switch s => kept.addSwitch s
  | .user u => kept.addUser u

/-- What is kept are these records, those of each kind in their order. -/
structure Lists (kept : Kept) (records : List Record) : Prop where
  signals : kept.signals.reverse = Record.signals records
  blocks : kept.blocks.reverse = Record.blocks records
  switches : kept.switches.reverse = Record.switches records

theorem none_lists : Kept.none.Lists [] := ⟨rfl, rfl, rfl⟩

variable {kept : Kept} {records : List Record}

theorem Lists.add (h : kept.Lists records) (record : Record) :
    (kept.add record).Lists (records ++ [record]) := by
  constructor
  · rw [Record.signals_append, ← h.signals]
    cases record with
    | switch s => simp [Kept.add, addSwitch, Record.signal?]
    | user u => cases u <;> simp [Kept.add, addUser, Record.signal?]
  · rw [Record.blocks_append, ← h.blocks]
    cases record with
    | switch s => simp [Kept.add, addSwitch, Record.block?]
    | user u => cases u <;> simp [Kept.add, addUser, Record.block?]
  · cases record with
    | switch s =>
      rw [Record.switches_append_switch, ← h.switches]
      exact List.reverse_cons
    | user u =>
      rw [Record.switches_append_user, ← h.switches]
      cases u <;> rfl

/-- Records that are left out show, whatever is kept of the others. -/
theorem Lists.forall_of_filter {p : Record → Bool} (h : kept.Lists (records.filter p))
    (hall : kept.Lists records) : ∀ record ∈ records, p record = true := by
  have hlength : (records.filter p).length = records.length := by
    rw [← Record.length_kinds, ← Record.length_kinds, Record.length_users, Record.length_users,
      ← h.signals, ← h.blocks, ← h.switches, ← hall.signals, ← hall.blocks, ← hall.switches]
  exact List.filter_eq_self.mp (List.filter_sublist.eq_of_length hlength)

end Kept

/-- Counts that tell how many records of each kind there are. -/
structure Tally.Counts (t : Tally) (records : List Record) : Prop where
  signals : t.signals = (Record.signals records).length
  blocks : t.blocks = (Record.blocks records).length
  switches : t.switches = (Record.switches records).length

theorem Tally.Counts.countLine {t : Tally} {records : List Record} (h : t.Counts records)
    (raw : Text) : (t.countLine raw).Counts records := by
  obtain ⟨hsignals, hblocks, hswitches⟩ := h
  unfold Tally.countLine
  dsimp only
  split_ifs <;> exact ⟨hsignals, hblocks, hswitches⟩

namespace Job

section

variable (job : Job)

theorem stepRecord_counts {p : Progress} {records : List Record} (h : p.tally.Counts records)
    (record : Record) : (job.stepRecord p record).progress.tally.Counts (records ++ [record]) := by
  obtain ⟨hsignals, hblocks, hswitches⟩ := h
  cases record with
  | switch s =>
    have hone : (Record.switches (records ++ [.switch s])).length = p.tally.switches + 1 := by
      rw [Record.switches_append_switch, List.length_append, hswitches]
      rfl
    rw [stepRecord, stepSwitch_tally]
    refine ⟨?_, ?_, hone.symm⟩
    · rw [Record.signals_append, List.length_append, ← hsignals]
      rfl
    · rw [Record.blocks_append, List.length_append, ← hblocks]
      rfl
  | user u =>
    have hcounted : (job.stepUser p u).progress.tally.switches = p.tally.switches ∧
        (job.stepUser p u).progress.tally.signals = (p.tally.countUser u).signals ∧
        (job.stepUser p u).progress.tally.blocks = (p.tally.countUser u).blocks := by
      unfold stepUser
      cases u <;> dsimp only [Tally.countUser] <;> split_ifs <;> exact ⟨rfl, rfl, rfl⟩
    obtain ⟨hsame, hplain, hstructured⟩ := hcounted
    constructor
    · rw [stepRecord, hplain, Record.signals_append, List.length_append, ← hsignals]
      cases u <;> rfl
    · rw [stepRecord, hstructured, Record.blocks_append, List.length_append, ← hblocks]
      cases u <;> rfl
    · rw [stepRecord, hsame, Record.switches_append_user, hswitches]

theorem run_counts {log : List Text} (hpassed : (job.run log).fault = none) :
    (job.run log).progress.tally.Counts (Log.records job.clock log) :=
  tally_of_run Tally.Counts ⟨rfl, rfl, rfl⟩ (fun raw h => h.countLine raw)
    (fun record h => job.stepRecord_counts h record) hpassed

/-- A record that is read through is kept as the last of its kind, or leaves what is kept alone. -/
theorem stepRecord_kept (p : Progress) {record : Record}
    (hread : job.views.cpu = true → ∀ s, record = .switch s → s.incoming.isOk = true) :
    (job.stepRecord p record).progress.kept =
      if record.isKept job.settings job.views then p.kept.map (·.add record) else p.kept := by
  cases record with
  | switch s =>
    cases hcpu : job.views.cpu with
    | false =>
      rw [stepRecord, stepSwitch_off hcpu, Record.isKept, hcpu]
      rfl
    | true =>
      obtain ⟨next, hnext⟩ := exists_ok_of_isOk (hread hcpu s rfl)
      rw [stepRecord, stepSwitch_eq hcpu p hnext, Record.isKept, hcpu]
      rfl
  | user u =>
    rw [Record.isKept, ← job.settings.ignores_eq]
    unfold stepRecord stepUser
    dsimp only
    cases job.settings.ignores u.header.process u.header.provider with
    | true => rfl
    | false => rfl

theorem stepRecord_kept_none {p : Progress} (hp : p.kept = none) (record : Record) :
    (job.stepRecord p record).progress.kept = none := by
  cases record with
  | switch s =>
    simp only [stepRecord, stepSwitch]
    split
    · exact hp
    · cases s.incoming with
      | error fault => exact hp
      | ok next => exact congrArg (Option.map _) hp
  | user u =>
    simp only [stepRecord, stepUser]
    split
    · exact hp
    · exact congrArg (Option.map _) hp

/-- A conversion that is not to keep records keeps none. -/
theorem convert_kept_none (hkeep : job.keep = false) {log : List Text} {finished : Finished}
    (hok : (job.convert log).result = .ok finished) : finished.progress.kept = none := by
  have hafter (records : List Record) : (job.after records).kept = none := by
    induction records using List.reverseRecOn with
    | nil => exact if_neg (by simp [hkeep])
    | append_singleton before record ih =>
      rw [after_append]
      exact job.stepRecord_kept_none ih record
  have hpassed := (convert_drawn hok).1
  rw [job.finished_eq hok, finish, (run_passed hpassed).1.kept]
  exact hafter _

theorem after_kept (hkeep : job.keep = true) (records : List Record)
    (hread : job.views.cpu = true → ∀ s ∈ Record.switches records, s.incoming.isOk = true) :
    ∃ kept, (job.after records).kept = some kept ∧
      kept.Lists (records.filter (Record.isKept job.settings job.views)) := by
  induction records using List.reverseRecOn with
  | nil => exact ⟨.none, if_pos hkeep, Kept.none_lists⟩
  | append_singleton before record ih =>
    obtain ⟨kept, hkept, hlists⟩ := ih fun hcpu s hs =>
      hread hcpu s (Record.mem_switches_of_initial (List.prefix_append _ _) hs)
    have hlast : job.views.cpu = true → ∀ s, record = .switch s → s.incoming.isOk = true := by
      intro hcpu s hs
      exact hread hcpu s (Record.mem_switches.mpr (by simp [hs]))
    rw [after_append, job.stepRecord_kept _ hlast, hkept, List.filter_append]
    by_cases hkeeps : record.isKept job.settings job.views = true
    · rw [if_pos hkeeps, List.filter_singleton, hkeeps]
      exact ⟨kept.add record, rfl, hlists.add record⟩
    · rw [if_neg hkeeps, List.filter_singleton, Bool.eq_false_iff.mpr hkeeps]
      exact ⟨kept, rfl, by simpa using hlists⟩

/-- At the end of a conversion all records of the log are counted, and some of them are kept. -/
theorem convert_kept (hkeep : job.keep = true) {log : List Text} {finished : Finished}
    (hok : (job.convert log).result = .ok finished) :
    let records := Log.records job.clock log
    (finished.tally.Counts records ∧
      finished.tally.ignored = records.countP (Record.excluded job.settings.ignoreRules)) ∧
    ∃ kept, finished.progress.kept = some kept ∧
      kept.Lists (records.filter (Record.isKept job.settings job.views)) := by
  intro records
  have hpassed := (convert_drawn hok).1
  have hcounts := job.run_counts hpassed
  have hignored := job.run_ignored hpassed
  obtain ⟨kept, hkept, hlists⟩ :=
    job.after_kept hkeep records fun hcpu => isOk_of_convert hcpu hok
  have hrun : (job.run log).progress.kept = some kept := by
    rw [(run_passed hpassed).1.kept, hkept]
  rw [job.finished_eq hok]
  exact ⟨⟨⟨hcounts.signals, hcounts.blocks, hcounts.switches⟩, hignored⟩, kept, hrun, hlists⟩

end

end Job

/-- Of a conversion that succeeds, the counts tell of all records of the log, and the records kept
are those of each kind in their order, but for the user records that some rule matches, and the
switches if no cores are drawn. So all records are kept only if there are none of these. The user
records that are not kept are counted as ignored. -/
theorem kept_records {settings : Settings} {options : Options} {room : Option Nat}
    {input bytes : Bytes} {finished : Finished} (hkeep : options.keep = true)
    (h : convert settings options room input = (bytes, .ok finished)) :
    let views := options.effectiveViews settings
    let records := Log.records ⟨options.boot⟩ (Log.texts input)
    let t := finished.tally
    t.Counts records ∧
    ∃ kept, finished.progress.kept = some kept ∧
      kept.Lists (records.filter (Record.isKept settings views)) ∧
      (kept.Lists records ↔ ∀ record ∈ records, record.isKept settings views = true) ∧
      kept.signals.length + kept.blocks.length + t.ignored = t.signals + t.blocks ∧
      kept.switches.length = if views.cpu then t.switches else 0 := by
  intro views records t
  obtain ⟨job, hplan, hok, -⟩ := exists_job_of_convert h
  obtain ⟨-, -, hjob⟩ := Job.eq_of_plan hplan
  have hkept := job.convert_kept (by rw [hjob]; exact hkeep) hok
  rw [hjob] at hkept
  obtain ⟨⟨hcounts, hignored⟩, kept, hsome, hlists⟩ := hkept
  refine ⟨hcounts, kept, hsome, hlists, ⟨?_, ?_⟩, ?_, ?_⟩
  · intro hall
    exact hlists.forall_of_filter hall
  · intro hall
    rwa [List.filter_eq_self.mpr hall] at hlists
  · have husers := Record.length_users_kept settings views records
    rw [Record.length_users, Record.length_users, ← hlists.signals, ← hlists.blocks,
      List.length_reverse, List.length_reverse, ← hcounts.signals, ← hcounts.blocks,
      ← hignored] at husers
    exact husers
  · rw [← List.length_reverse, hlists.switches, Record.switches_kept, hcounts.switches]
    exact apply_ite List.length _ _ _

/-- A message that a rule matches, another one, and a switch. -/
theorem kept_records_ruled :
    let settings := { Job.allViews with ignoreRules := [⟨some "App".toList, none⟩] }
    let options := { Options.new with keep := true }
    let input := Utf8.encode (Job.userLine "App" ++ Job.userLine "Shell" ++ Job.switchLine)
    let report := convert settings options none input
    ∃ finished, report = (report.1, .ok finished) ∧ options.keep = true ∧
      (finished.tally.signals, finished.tally.ignored, finished.tally.switches) = (2, 1, 1) ∧
      ∃ kept, finished.progress.kept = some kept ∧
        ¬kept.Lists (Log.records ⟨none⟩ (Log.texts input)) ∧
        kept.signals.length + kept.blocks.length = 1 ∧ kept.switches.length = 1 := by
  intro settings options input report
  obtain ⟨htally, hruled⟩ :
      report.2.map Finished.tally = .ok ⟨3, 0, 0, 1, 2, 0, 1, 0, 0, 13, 0⟩ ∧
      ¬∀ record ∈ Log.records ⟨none⟩ (Log.texts input),
        record.isKept settings (options.effectiveViews settings) = true := by
    decide +kernel
  obtain ⟨finished, hok, hcounts⟩ := map_eq_ok_iff.mp htally
  have hreport : report = (report.1, .ok finished) := by
    calc report = (report.1, report.2) := Prod.mk.eta.symm
      _ = (report.1, .ok finished) := by rw [hok]
  obtain ⟨-, kept, hkept, -, hall, husers, hswitches⟩ := kept_records rfl hreport
  rw [hcounts] at husers hswitches
  refine ⟨finished, hreport, rfl, by rw [hcounts], kept, hkept, mt hall.mp hruled, ?_, hswitches⟩
  have hignored : kept.signals.length + kept.blocks.length + 1 = 2 := husers
  omega

/-- Whether a conversion that keeps records keeps all of them. -/
def KeepsAll (settings : Settings) (options : Options) (input : Bytes) : Prop :=
  ∀ finished kept, (convert settings options none input).2 = .ok finished →
    finished.progress.kept = some kept →
    kept.Lists (Log.records ⟨options.boot⟩ (Log.texts input))

theorem not_keepsAll_of_none {settings : Settings} {options : Options} {input : Bytes}
    (h : (convert settings options none input).2.map (·.progress.kept) = .ok (some .none) ∧
      Log.records ⟨options.boot⟩ (Log.texts input) ≠ []) : ¬KeepsAll settings options input := by
  obtain ⟨hnone, hread⟩ := h
  intro hall
  obtain ⟨finished, hok, hkept⟩ := map_eq_ok_iff.mp hnone
  obtain ⟨hsignals, hblocks, hswitches⟩ := hall finished .none hok hkept
  apply hread
  rw [← List.length_eq_zero_iff, ← Record.length_kinds, Record.length_users, ← hsignals,
    ← hblocks, ← hswitches]
  rfl

/-- An ignored message and, without cores, a switch are read and not kept. -/
theorem not_keepsAll :
    ¬KeepsAll { Job.allViews with ignoreRules := [⟨some "App".toList, none⟩] }
      { Options.new with keep := true } (Utf8.encode (Job.userLine "App")) ∧
    ¬KeepsAll Job.allViews { Options.new with views := some ⟨true, false, false⟩, keep := true }
      (Utf8.encode Job.switchLine) := by
  constructor
  · apply not_keepsAll_of_none
    decide +kernel
  · apply not_keepsAll_of_none
    decide +kernel

end TraceReport
