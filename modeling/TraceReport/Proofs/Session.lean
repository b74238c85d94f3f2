import TraceReport.Proofs.Conversion.Retention
import TraceReport.Proofs.Files.Writing
import TraceReport.Session

namespace TraceReport.Session

open FileTree

/-- The place at which a session can create its report. -/
def target? (session : Session) (tree : FileTree) : Option Place :=
  (tree.create session.output).toOption.map Prod.fst

variable {session : Session} {settings : Settings} {tree : FileTree} {place logPlace : Place}
  {log : Bytes}

theorem target?_eq_some_iff :
    session.target? tree = some place ↔
      tree.create session.output = .ok (place, tree.put place (.file [])) := by
  unfold target?
  constructor
  · intro h
    obtain ⟨⟨found, emptied⟩, hcreate, rfl⟩ := Option.map_eq_some_iff.mp h
    rw [toOption_eq_some_iff] at hcreate
    obtain ⟨-, rfl, -⟩ := create_eq_ok hcreate
    exact hcreate
  · intro h
    rw [h]
    rfl

/-- A file at the target is the one that the output names. -/
theorem lookup_output {content : Bytes} (h : session.target? tree = some place)
    (hfile : tree.entry? place = some (.file content)) :
    tree.lookup session.output = .ok (place, .file content) :=
  lookup_eq_of_create (target?_eq_some_iff.mp h) hfile

theorem entry?_target (h : session.target? tree = some place) :
    tree.entry? place ≠ some .directory :=
  (create_eq_ok (target?_eq_some_iff.mp h)).1

/-- What is written once the output has been emptied. -/
theorem convertOpen_eq (hlog : (tree.put place (.file [])).contentAt logPlace = .ok log) :
    session.convertOpen settings logPlace place (tree.put place (.file [])) =
      (tree.put place (.file (convert settings session.options none log).1),
        (convert settings session.options none log).2) := by
  unfold convertOpen convert
  cases Job.plan settings session.options with
  | error fault => rfl
  | ok job =>
    simp only [hlog, put_put]
    rfl

theorem kept_none_of_convert (hkeep : session.options.keep = false) {finished : Finished}
    (h : (convert settings session.options none log).2 = .ok finished) :
    finished.progress.kept = none := by
  unfold convert at h
  split at h
  · cases h
  · next job hplan =>
    obtain ⟨-, -, hjob⟩ := Job.eq_of_plan hplan
    exact job.convert_kept_none (by rw [hjob]; exact hkeep) h

/-- The files after a run over a log that is a file. It is read after the output has been
emptied. -/
theorem run_tree (hkeep : session.options.keep = false)
    (hlog : tree.lookup session.input = .ok (logPlace, .file log)) :
    (session.run settings tree).1 = match session.target? tree with
      | none => tree
      | some place => tree.put place (.file (convert settings session.options none
          (if session.target? tree = some logPlace then [] else log)).1) := by
  have hopen : tree.openAt session.input = .ok logPlace := by rw [openAt, hlog]; rfl
  unfold run
  rw [hopen]
  cases htarget : session.target? tree with
  | none =>
    have hfail : ∃ cause, tree.create session.output = .error cause := by
      unfold target? at htarget
      cases hcreate : tree.create session.output with
      | error cause => exact ⟨cause, rfl⟩
      | ok created => simp [hcreate, Except.toOption] at htarget
    obtain ⟨cause, hcause⟩ := hfail
    simp only [hcause]
  | some place =>
    have hread : (tree.put place (.file [])).contentAt logPlace =
        .ok (if some place = some logPlace then [] else log) := by
      obtain ⟨-, -, -, hentry, -⟩ := lookup_file_iff.mp hlog
      rw [contentAt, entry?_put (entry?_target htarget), hentry]
      simp only [Option.some.injEq, eq_comm (a := logPlace)]
      split_ifs <;> rfl
    simp only [target?_eq_some_iff.mp htarget, convertOpen_eq hread]
    split
    · next heq => exact (congrArg Prod.fst heq).symm
    · next finished heq =>
      have hkept := kept_none_of_convert hkeep (congrArg Prod.snd heq)
      rw [addDumps, hkept]
      exact (congrArg Prod.fst heq).symm

/-- A file is found as it was, unless the report of a session has taken its place. -/
theorem lookup_after {path : Path} {found : Place} {content report : Bytes} {after : FileTree}
    (hpath : tree.lookup path = .ok (found, .file content))
    (hafter : after = match session.target? tree with
      | none => tree
      | some place => tree.put place (.file report)) :
    after.lookup path =
      .ok (found, .file (if session.target? tree = some found then report else content)) := by
  subst hafter
  cases htarget : session.target? tree with
  | none => simp [hpath]
  | some place =>
    rw [lookup_put (entry?_target htarget) hpath]
    simp only [Option.some.injEq, eq_comm]

/-- What is left of the log and of the settings when a run has ended, in whatever way. Both are as
they were if the output names neither. A file that the output names has the report in place of its
content, and where that is the log, it is the report of an empty log. -/
theorem inputs_after_run {settingsPath : Path} (hkeep : session.options.keep = false)
    (hpaths : tree.requirePaths settingsPath session.input session.output = .ok ()) :
    let after := (session.run settings tree).1
    (∀ path, path = session.input ∨ path = settingsPath →
      tree.lookup session.output ≠ tree.lookup path → after.lookup path = tree.lookup path) ∧
    ∃ logPlace log settingsPlace text,
      tree.lookup session.input = .ok (logPlace, .file log) ∧
      tree.lookup settingsPath = .ok (settingsPlace, .file text) ∧
      let target := session.target? tree
      let read := if target = some logPlace then [] else log
      let report := (convert settings session.options none read).1
      after.lookup session.input =
        .ok (logPlace, .file (if target = some logPlace then report else log)) ∧
      after.lookup settingsPath =
        .ok (settingsPlace, .file (if target = some settingsPlace then report else text)) := by
  intro after
  obtain ⟨hsettings, hlog, -⟩ := requirePaths_eq_ok hpaths
  obtain ⟨settingsPlace, text, hsettings⟩ := exists_file_of_requireFile hsettings
  obtain ⟨logPlace, log, hlog⟩ := exists_file_of_requireFile hlog
  have hafter : after = _ := run_tree hkeep hlog
  refine ⟨?_, logPlace, log, settingsPlace, text, hlog, hsettings, lookup_after hlog hafter,
    lookup_after hsettings hafter⟩
  intro path hpath hother
  obtain ⟨found, content, hfound⟩ :
      ∃ found content, tree.lookup path = .ok (found, .file content) := by
    rcases hpath with rfl | rfl
    · exact ⟨_, _, hlog⟩
    · exact ⟨_, _, hsettings⟩
  have hapart : session.target? tree ≠ some found := by
    intro htarget
    obtain ⟨-, -, -, hentry, -⟩ := lookup_file_iff.mp hfound
    exact hother ((lookup_output htarget hentry).trans hfound.symm)
  rw [lookup_after hfound hafter, if_neg hapart, hfound]

/-- A directory with a file of settings and a log. -/
def scratch : FileTree where
  here := []
  entries := Table.ofPairs [
    (["conf.json".toList], .file (Utf8.encode (
      "\x7b\"catapultIgnoreEvents\":[],\"catapultUserView\":\x7b\"enable\":true\x7d,".toList ++
      "\"catapultGroupView\":\x7b\"enable\":false,\"groups\":[]\x7d,".toList ++
      "\"catapultCPUView\":\x7b\"enable\":false\x7d\x7d".toList))),
    (["in.txt".toList], .file (Utf8.encode (Job.userLine "App")))]

/-- The settings in the scratch directory. -/
def userView : Settings := ⟨[], true, ⟨false, []⟩, false⟩

def overLog (output : String) : Session := ⟨"in.txt".toList, output.toList, none, Options.new⟩

/-- A new report leaves the log and the settings alone; one that is written to the log, by whatever
path, is the report of an empty log. -/
theorem inputs_after_run_scratch :
    (∀ output ∈ ["out.json", "./in.txt"], (overLog output).options.keep = false ∧
      scratch.requirePaths "conf.json".toList "in.txt".toList output.toList = .ok ()) ∧
    (let after := ((overLog "out.json").run userView scratch).1
     after.lookup "in.txt".toList = scratch.lookup "in.txt".toList ∧
     after.lookup "conf.json".toList = scratch.lookup "conf.json".toList) ∧
    ((overLog "./in.txt").run userView scratch).1.lookup "in.txt".toList =
      .ok (["in.txt".toList], .file (convert userView Options.new none []).1) := by
  have hpaths : ∀ output ∈ ["out.json", "./in.txt"],
      scratch.requirePaths "conf.json".toList "in.txt".toList output.toList = .ok () := by
    decide +kernel
  have hnew := hpaths "out.json" (by simp)
  have hlog := hpaths "./in.txt" (by simp)
  obtain ⟨hkept, -⟩ :=
    @inputs_after_run (overLog "out.json") userView scratch "conf.json".toList rfl hnew
  refine ⟨fun output h => ⟨rfl, hpaths output h⟩, ⟨?_, ?_⟩, ?_⟩
  · exact hkept _ (.inl rfl) (by decide +kernel)
  · exact hkept _ (.inr rfl) (by decide +kernel)
  · obtain ⟨-, logPlace, log, -, -, hlookup, -, hafter, -⟩ :=
      @inputs_after_run (overLog "./in.txt") userView scratch "conf.json".toList rfl hlog
    have htarget : (overLog "./in.txt").target? scratch = some ["in.txt".toList] := by
      decide +kernel
    have hplace : (scratch.lookup "in.txt".toList).map Prod.fst = .ok ["in.txt".toList] := by
      decide +kernel
    obtain ⟨found, hfound, hplace⟩ := map_eq_ok_iff.mp hplace
    obtain rfl := Except.ok.inj (hlookup.symm.trans hfound)
    obtain rfl : logPlace = ["in.txt".toList] := hplace
    rw [if_pos htarget, if_pos htarget] at hafter
    exact hafter

/-- A run leaves its log and its settings as they were. -/
def KeepsInputs (session : Session) (settings : Settings) (settingsPath : Path)
    (tree : FileTree) : Prop :=
  ∀ path, path = session.input ∨ path = settingsPath →
    (session.run settings tree).1.lookup path = tree.lookup path

/-- Paths that pass the checks may name one file twice, and the report is written over the log. -/
theorem not_keepsInputs :
    ¬∀ (session : Session) (settings : Settings) (settingsPath : Path) (tree : FileTree),
      tree.requirePaths settingsPath session.input session.output = .ok () →
      Settings.load tree settingsPath = .ok settings → session.options.keep = false →
      KeepsInputs session settings settingsPath tree := by
  intro h
  have hload : Settings.load scratch "conf.json".toList = .ok userView :=
    toOption_eq_some_iff.mp (by decide +kernel)
  have hkept := h (overLog "in.txt") userView "conf.json".toList scratch (by decide +kernel) hload
    rfl "in.txt".toList (.inl rfl)
  revert hkept
  decide +kernel

/-- A fault of the options is found before the log is read, and after the output has been
emptied. -/
theorem run_usage_fault {fault : ConversionFault}
    (hfault : fault = .noView ∨ ∃ millis, fault = .badPeriod millis)
    (h : (session.run settings tree).2 = .error fault) :
    Job.plan settings session.options = .error fault ∧
      ∃ place, session.target? tree = some place ∧
        (session.run settings tree).1 = tree.put place (.file []) := by
  have hnoFile (cause : FileFault) : fault ≠ .file cause := by
    rcases hfault with rfl | ⟨millis, rfl⟩ <;> exact nofun
  have hnoLine (number : Nat) (cause : LineFault) : fault ≠ .badLine number cause := by
    rcases hfault with rfl | ⟨millis, rfl⟩ <;> exact nofun
  unfold run at h ⊢
  cases hopen : tree.openAt session.input with
  | error cause =>
    rw [hopen] at h
    exact absurd (Except.error.inj h).symm (hnoFile cause)
  | ok input =>
    rw [hopen] at h
    cases hcreate : tree.create session.output with
    | error cause =>
      rw [hcreate] at h
      exact absurd (Except.error.inj h).symm (hnoFile cause)
    | ok created =>
      obtain ⟨place, emptied⟩ := created
      obtain ⟨-, rfl, -⟩ := create_eq_ok hcreate
      simp only [hcreate, convertOpen] at h ⊢
      cases hplan : Job.plan settings session.options with
      | error found =>
        simp only [hplan, Except.error.injEq] at h ⊢
        exact ⟨h, place, target?_eq_some_iff.mpr hcreate, rfl⟩
      | ok job =>
        simp only [hplan] at h
        cases hlog : (tree.put place (.file [])).contentAt input with
        | error cause =>
          simp only [hlog, Except.error.injEq] at h
          exact absurd h.symm (hnoFile cause)
        | ok log =>
          simp only [hlog] at h
          cases hresult : (job.convert (Log.texts log)).result with
          | error found =>
            simp only [hresult, Except.error.injEq] at h
            obtain ⟨number, cause, rfl⟩ := job.eq_badLine_of_convert hresult
            exact absurd h.symm (hnoLine number cause)
          | ok finished =>
            rw [hresult] at h
            cases h

/-- A fault of the options is found when the output has been emptied. Nothing is written to it, and
no other file is touched; so the files are as they were only if there was an empty one. -/
theorem usage_fault_empties {fault : ConversionFault}
    (hfault : fault = .noView ∨ ∃ millis, fault = .badPeriod millis)
    (h : (session.run settings tree).2 = .error fault) :
    let after := (session.run settings tree).1
    (∀ log, convert settings session.options none log = ([], .error fault)) ∧
    ∃ place, session.target? tree = some place ∧
      (∀ other, after.entry? other =
        if other = place then some (.file []) else tree.entry? other) ∧
      (after.SameFiles tree ↔ tree.entry? place = some (.file [])) := by
  intro after
  obtain ⟨hplan, place, htarget, hafter⟩ := run_usage_fault hfault h
  have hentries (other : Place) : after.entry? other =
      if other = place then some (.file []) else tree.entry? other := by
    rw [← entry?_put (entry?_target htarget), ← hafter]
  refine ⟨fun log => by rw [convert, hplan], place, htarget, hentries, fun hsame => ?_,
    fun hempty other => ?_⟩
  · rw [← hsame, hentries, if_pos rfl]
  · rw [hentries]
    split
    case isTrue heq => rw [heq, hempty]
    case isFalse => rfl

/-- The scratch directory with an earlier report. -/
def reported : FileTree := scratch.put ["out.json".toList] (.file (Utf8.encode "\x7b\x7d".toList))

/-- A conversion without views. -/
def viewless (output : String) : Session :=
  { overLog output with options := { Options.new with views := some .none } }

/-- The report of an earlier run is lost to a run without views. -/
theorem usage_fault_empties_report :
    ((viewless "out.json").run userView reported).2 = .error .noView ∧
    reported.entry? ["out.json".toList] = some (.file (Utf8.encode "\x7b\x7d".toList)) ∧
    ∃ place, (viewless "out.json").target? reported = some place ∧
      entry? ((viewless "out.json").run userView reported).1 place = some (.file []) := by
  have hfault : ((viewless "out.json").run userView reported).2 = .error .noView := by
    decide +kernel
  obtain ⟨-, place, htarget, hentries, -⟩ := usage_fault_empties (.inl rfl) hfault
  exact ⟨hfault, rfl, place, htarget, (hentries place).trans (if_pos rfl)⟩

/-- A run that fails for its options leaves all files as they were. -/
def FailsClean (session : Session) (settings : Settings) (tree : FileTree) : Prop :=
  ∀ fault, (fault = .noView ∨ ∃ millis, fault = .badPeriod millis) →
    (session.run settings tree).2 = .error fault → (session.run settings tree).1.SameFiles tree

/-- An earlier report is emptied, and where there was none, an empty one is created. -/
theorem not_failsClean :
    ¬FailsClean (viewless "out.json") userView reported ∧
    ¬FailsClean { overLog "out.json" with options := { Options.new with periodMillis := 0 } }
      userView scratch := by
  constructor
  · intro h
    have hsame := h .noView (.inl rfl) (by decide +kernel) ["out.json".toList]
    revert hsame
    decide +kernel
  · intro h
    have hsame := h (.badPeriod 0) (.inr ⟨0, rfl⟩) (by decide +kernel) ["out.json".toList]
    revert hsame
    decide +kernel

end TraceReport.Session
