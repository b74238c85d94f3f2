import TraceReport.Proofs.Conversion.Acceptance
import TraceReport.Proofs.Conversion.Views

namespace TraceReport

namespace Log

theorem lines_cons (b : UInt8) (rest : Bytes) :
    lines (b :: rest) =
      if b = 10 then [b] :: lines rest
      else match lines rest with
        | [] => [[b]]
        | line :: more => (b :: line) :: more := rfl

theorem lines_ne_nil {input : Bytes} (h : input ≠ []) : lines input ≠ [] := by
  cases input with
  | nil => exact absurd rfl h
  | cons b rest =>
    rw [lines_cons]
    split
    · exact List.cons_ne_nil _ _
    · split <;> exact List.cons_ne_nil _ _

/-- A part of a log that ends with a line feed has lines of its own. -/
theorem lines_append {a : Bytes} (h : a = [] ∨ a.getLast? = some 10) (b : Bytes) :
    lines (a ++ b) = lines a ++ lines b := by
  induction a with
  | nil => rfl
  | cons first rest ih =>
    rw [List.cons_append, lines_cons, lines_cons]
    cases rest with
    | nil =>
      obtain rfl : first = 10 := by simpa using h
      rfl
    | cons second more =>
      have hrest : (second :: more).getLast? = some 10 := by
        simpa [List.getLast?_cons_cons] using h
      rw [ih (.inr hrest)]
      split
      · rfl
      · cases hl : lines (second :: more) with
        | nil => exact absurd hl (lines_ne_nil (List.cons_ne_nil _ _))
        | cons line others => rfl

theorem texts_append {a : Bytes} (h : a = [] ∨ a.getLast? = some 10) (b : Bytes) :
    texts (a ++ b) = texts a ++ texts b := by
  rw [texts, texts, texts, lines_append h, List.map_append]

end Log

/-- Whether an event comes from a single record. Counters and names go by all of a log. -/
def Origin.single : Origin → Bool
  | .user => true
  | .group => true
  | .schedule => true
  | _ => false

namespace Drawn

/-- The events of single records, in order. -/
def singles (drawn : List Drawn) : List Drawn := drawn.filter fun d => d.origin.single

section

variable (drawn more : List Drawn)

@[simp] theorem singles_append : singles (drawn ++ more) = singles drawn ++ singles more :=
  List.filter_append _ _

theorem singles_of (origin : Origin) (events : List Event) :
    singles (Drawn.of origin events) = if origin.single then Drawn.of origin events else [] :=
  filter_of Origin.single origin events

end

end Drawn

namespace Job

/-- What a record draws by itself, whatever state it meets. -/
def recordSingles (job : Job) : Record → List Drawn
  | .switch s =>
    if job.views.cpu then Drawn.of .schedule (job.switchEvents s s.turn.entering) else []
  | .user u =>
    if job.settings.ignores u.header.process u.header.provider then [] else job.drawUser u

/-- What a line draws by itself. -/
def lineSingles (job : Job) (raw : Text) : List Drawn :=
  (Line.record job.clock raw).toOption.join.toList.flatMap job.recordSingles

section

variable (job : Job)

theorem singles_stepRecord (p : Progress) (record : Record) :
    Drawn.singles (job.stepRecord p record).drawn = job.recordSingles record := by
  cases record with
  | switch s =>
    rw [stepRecord, stepSwitch_drawn, recordSingles]
    split
    · rw [Drawn.singles_append, Drawn.singles_of, Drawn.singles_of]
      exact List.append_nil _
    · rfl
  | user u =>
    rw [stepRecord, stepUser_drawn, recordSingles]
    split
    · rfl
    · rw [drawUser]
      cases job.drawable? u with
      | none => rfl
      | some tracepoint =>
        simp only [Drawn.singles_append, Drawn.singles_of]
        rfl

theorem singles_draws (p : Progress) (records : List Record) :
    Drawn.singles (job.draws p records) = records.flatMap job.recordSingles := by
  induction records generalizing p with
  | nil => rfl
  | cons record rest ih =>
    rw [draws, Drawn.singles_append, singles_stepRecord, ih, List.flatMap_cons]

theorem singles_closing (p : Progress) : Drawn.singles (job.closing p) = [] := by
  refine List.filter_eq_nil_iff.mpr fun d hd => ?_
  rcases origin_of_mem_closing hd with hreference | ⟨view, hnaming⟩
  · simp [hreference, Origin.single]
  · simp [hnaming, Origin.single]

theorem flatMap_records (log : List Text) :
    (Log.records job.clock log).flatMap job.recordSingles = log.flatMap job.lineSingles := by
  induction log with
  | nil => rfl
  | cons raw rest ih =>
    rw [List.flatMap_cons, ← ih, Log.records, Log.records, List.filterMap_cons, lineSingles]
    cases (Line.record job.clock raw).toOption.join with
    | none => rfl
    | some record => simp

/-- Users, groups and the schedule show line by line what each line draws by itself. -/
theorem singles_convert {log : List Text} (hok : (job.convert log).result.isOk = true) :
    Drawn.singles (job.convert log).drawn = log.flatMap job.lineSingles := by
  obtain ⟨finished, hfinished⟩ := exists_ok_of_isOk hok
  rw [(convert_drawn hfinished).2, Drawn.singles_append, singles_draws, singles_closing,
    List.append_nil, flatMap_records]

theorem convert_append_isOk (log more : List Text) :
    (job.convert (log ++ more)).result.isOk = true ↔
      (job.convert log).result.isOk = true ∧ (job.convert more).result.isOk = true := by
  simp only [convert_isOk_iff, List.forall_mem_append]

end

end Job

/-- A conversion with allowed options ends as its job does, and writes a whole report if it
succeeds. -/
theorem convert_of_plan {settings : Settings} {options : Options} {job : Job} (input : Bytes)
    (hplan : Job.plan settings options = .ok job) :
    (convert settings options none input).2 = (job.convert (Log.texts input)).result ∧
    ((job.convert (Log.texts input)).result.isOk = true →
      (convert settings options none input).1 =
        Report.bytesOf (Report.finished (Drawn.events (job.convert (Log.texts input)).drawn))) := by
  rw [convert, hplan]
  refine ⟨rfl, fun hok => ?_⟩
  obtain ⟨finished, hfinished⟩ := exists_ok_of_isOk hok
  simp only [Outcome.write, Outcome.pieces, hfinished]

/-- Two logs one after the other, the first with its last line closed, are accepted when each of
them is, and what single records show in the reports of the two is what they show in the report of
both. -/
theorem singles_of_concatenation (settings : Settings) (options : Options) {a : Bytes} (b : Bytes)
    (hclosed : a = [] ∨ a.getLast? = some 10) :
    let accepted (input : Bytes) := (convert settings options none input).2.isOk = true
    (accepted (a ++ b) ↔ accepted a ∧ accepted b) ∧
    (accepted (a ++ b) → ∃ job, Job.plan settings options = .ok job ∧
      let drawn (input : Bytes) := (job.convert (Log.texts input)).drawn
      (∀ input ∈ [a, b, a ++ b], (convert settings options none input).1 =
        Report.bytesOf (Report.finished (Drawn.events (drawn input)))) ∧
      Drawn.singles (drawn (a ++ b)) = Drawn.singles (drawn a) ++ Drawn.singles (drawn b)) := by
  intro accepted
  cases hplan : Job.plan settings options with
  | error fault =>
    have hrefused (input : Bytes) : ¬accepted input := by
      show ¬(convert settings options none input).2.isOk = true
      rw [convert, hplan]
      exact Bool.false_ne_true
    exact ⟨⟨fun h => absurd h (hrefused _), fun h => absurd h.1 (hrefused _)⟩,
      fun h => absurd h (hrefused _)⟩
  | ok job =>
    have haccepted (input : Bytes) :
        accepted input ↔ (job.convert (Log.texts input)).result.isOk = true := by
      show (convert settings options none input).2.isOk = true ↔ _
      rw [(convert_of_plan input hplan).1]
    have hboth : accepted (a ++ b) ↔ accepted a ∧ accepted b := by
      rw [haccepted, haccepted, haccepted, Log.texts_append hclosed, job.convert_append_isOk]
    refine ⟨hboth, fun hok => ⟨job, rfl, fun input hm => ?_, ?_⟩⟩
    · have hinput : accepted input := by
        obtain ⟨hfirst, hsecond⟩ := hboth.mp hok
        simp only [List.mem_cons, List.not_mem_nil, or_false] at hm
        rcases hm with rfl | rfl | rfl
        · exact hfirst
        · exact hsecond
        · exact hok
      exact (convert_of_plan input hplan).2 ((haccepted input).mp hinput)
    · have hparts := hboth.mp hok
      rw [job.singles_convert ((haccepted _).mp hok), Log.texts_append hclosed,
        List.flatMap_append, ← job.singles_convert ((haccepted _).mp hparts.1),
        ← job.singles_convert ((haccepted _).mp hparts.2)]

/-- A message that a group shows as well, and then a switch. -/
theorem singles_of_message_then_switch :
    let message := Utf8.encode (Job.userLine "App")
    let switch := Utf8.encode Job.switchLine
    let accepted (input : Bytes) := (convert Job.allViews Options.new none input).2.isOk = true
    let singles (input : Bytes) := Drawn.singles (Job.allViewsJob.convert (Log.texts input)).drawn
    (message = [] ∨ message.getLast? = some 10) ∧
    (accepted (message ++ switch) ∧ accepted message ∧ accepted switch) ∧
    (singles message).map (·.origin) = [.user, .group] ∧
    (singles switch).map (·.origin) = [.schedule] ∧
    singles (message ++ switch) = singles message ++ singles switch := by
  intro message switch accepted singles
  have hclosed : message = [] ∨ message.getLast? = some 10 := .inr (by decide +kernel)
  have haccepted : accepted message ∧ accepted switch := by decide +kernel
  have horigins : (singles message).map (·.origin) = [.user, .group] ∧
      (singles switch).map (·.origin) = [.schedule] := by decide +kernel
  obtain ⟨hboth, hsingles⟩ :=
    singles_of_concatenation Job.allViews Options.new switch hclosed
  have hall : accepted (message ++ switch) := hboth.mpr haccepted
  obtain ⟨job, hjob, -, hparts⟩ := hsingles hall
  obtain rfl : Job.allViewsJob = job := Except.ok.inj hjob
  exact ⟨hclosed, ⟨hall, haccepted⟩, horigins.1, horigins.2, hparts⟩

end TraceReport
