import TraceReport.Proofs.Conversion.Routing

namespace TraceReport

namespace Line

/-- What stands after a quote in a line is added to it, but for the line end. -/
theorem body_append_quote {front : Text} (hfront : front ≠ []) (back : Text) :
    body (front ++ '"' :: back) = body (front ++ ['"']) ++ Text.dropEndWhile isLineEnd back := by
  obtain ⟨c, rest, rfl⟩ := List.exists_cons_of_ne_nil hfront
  have hlast : ∀ e ∈ (c :: rest ++ ['"']).getLast?, isLineEnd e = false := by
    intro e he
    rw [List.getLast?_concat] at he
    obtain rfl := Option.some.inj he
    rfl
  have hsplit : c :: rest ++ '"' :: back = c :: rest ++ ['"'] ++ back := by simp
  rw [hsplit]
  cases rest with
  | nil => exact body_append hlast back
  | cons d rest => exact body_append hlast back

/-- The fixed fields end before the first quote of a payload. -/
def QuotesPayload (front : Text) : Prop :=
  userMinimum < (tokens (body (front ++ ['"']))).length

instance (front : Text) : Decidable (QuotesPayload front) :=
  inferInstanceAs (Decidable (_ < _))

/-- The fixed fields do not depend on what follows the quote. -/
theorem QuotesPayload.fixed_tokens {front : Text} (h : QuotesPayload front) (back : Text) :
    userMinimum ≤ (tokens (body (front ++ '"' :: back))).length ∧
      ∀ i < userMinimum, (tokens (body (front ++ '"' :: back)))[i]? =
        (tokens (body (front ++ ['"'])))[i]? := by
  have hfront : front ≠ [] := by
    rintro rfl
    revert h
    decide
  have hgrows := grows_tokens (body (front ++ ['"'])) (Text.dropEndWhile isLineEnd back)
  rw [← body_append_quote hfront] at hgrows
  exact ⟨(Nat.le_of_lt h).trans hgrows.length_le,
    fun i hi => hgrows.getElem? (Nat.lt_of_le_of_lt hi h)⟩

theorem QuotesPayload.provider?_eq {front : Text} (h : QuotesPayload front) (back : Text) :
    provider? (tokens (body (front ++ '"' :: back))) =
      provider? (tokens (body (front ++ ['"']))) := by
  have hindex : providerIndex < userMinimum := by decide
  rw [provider?, provider?, (h.fixed_tokens back).2 providerIndex hindex]

theorem not_isBlank_of_mem_quote {raw : Text} (h : '"' ∈ raw) : isBlank (body raw) = false := by
  have hquote : '"' ∈ body raw := mem_body h (by decide) (by decide)
  refine Bool.eq_false_iff.mpr fun hblank => ?_
  exact absurd (List.all_eq_true.mp hblank '"' hquote) (by decide)

end Line

namespace Header

/-- A header but for its payload. -/
def fixed (h : Header) : Header := { h with payload := [] }

theorem map_fixed_read (clock : Clock) (tokens : List Text) (enough : headTokens ≤ tokens.length)
    (pidToken tidToken : Text) (payload : Payload) :
    (read clock tokens enough pidToken tidToken payload).map fixed =
      read clock tokens enough pidToken tidToken [] := by
  have : 13 ≤ tokens.length := enough
  simp only [read]
  cases clock.micros? tokens[0] with
  | none => rfl
  | some time =>
    cases core? (without [' '] tokens[7]) with
    | error fault => rfl
    | ok core =>
      cases integer? "process id" (without [',', ' '] pidToken) with
      | error fault => rfl
      | ok pid =>
        cases integer? "thread id" (without [',', ' '] tidToken) with
        | error fault => rfl
        | ok tid => rfl

theorem token_eq {xs ys : List Text} {i : Nat} (h : xs[i]? = ys[i]?) (hx : i < xs.length)
    (hy : i < ys.length) : xs[i] = ys[i] := by
  rw [List.getElem?_eq_getElem hx, List.getElem?_eq_getElem hy] at h
  exact Option.some.inj h

/-- The fixed fields are read from the first tokens. -/
theorem read_congr (clock : Clock) {xs ys : List Text} (hx : headTokens ≤ xs.length)
    (hy : headTokens ≤ ys.length) (h : ∀ i < headTokens, xs[i]? = ys[i]?) (pidToken tidToken : Text)
    (payload : Payload) :
    read clock xs hx pidToken tidToken payload = read clock ys hy pidToken tidToken payload := by
  have : 13 ≤ xs.length := hx
  have : 13 ≤ ys.length := hy
  have hstamp : xs[0] = ys[0] := token_eq (h 0 (by decide)) _ _
  have hhost : xs[2] = ys[2] := token_eq (h 2 (by decide)) _ _
  have hnames : xs[3] = ys[3] := token_eq (h 3 (by decide)) _ _
  have hcpu : xs[7] = ys[7] := token_eq (h 7 (by decide)) _ _
  have hprocess : getElem xs 12 hx = getElem ys 12 hy := token_eq (h 12 (by decide)) _ _
  simp only [read, hstamp, hhost, hnames, hcpu, hprocess]

end Header

/-- A user record of either dialect has the header of its fixed fields. -/
theorem Record.map_fixed_read (clock : Clock) {dialect : Dialect} (hdialect : dialect ≠ .kernel)
    {tokens : List Text} (enough : Header.headTokens ≤ tokens.length)
    (hlen : userMinimum ≤ tokens.length) {pidToken tidToken : Text}
    (hpid : tokens[15]? = some pidToken) (htid : tokens[18]? = some tidToken) :
    (Record.read clock dialect tokens).map (fun record => record.header.fixed) =
      Header.read clock tokens enough pidToken tidToken [] := by
  obtain ⟨hpid', rfl⟩ := List.getElem_of_getElem? hpid
  obtain ⟨htid', rfl⟩ := List.getElem_of_getElem? htid
  cases dialect with
  | kernel => exact absurd rfl hdialect
  | plain =>
    simp only [Record.read, Signal.read, dif_pos hlen]
    generalize Payload.plain _ = parts
    obtain ⟨payload, scope⟩ := parts
    rw [← Header.map_fixed_read clock tokens enough tokens[15] tokens[18] payload]
    cases Header.read clock tokens _ tokens[15] tokens[18] payload with
    | error fault => rfl
    | ok header => rfl
  | structured =>
    simp only [Record.read, Block.read, dif_pos hlen]
    generalize Payload.structured _ = payload
    rw [← Header.map_fixed_read clock tokens enough tokens[15] tokens[18] payload]
    cases Header.read clock tokens _ tokens[15] tokens[18] payload with
    | error fault => rfl
    | ok header => rfl

/-- Before the first quote of a payload everything is said that a header is read from. -/
theorem Line.QuotesPayload.fixed_records {front : Text} (h : QuotesPayload front) (clock : Clock)
    {dialect dialect' : Dialect} (hdialect : dialect ≠ .kernel) (hdialect' : dialect' ≠ .kernel)
    (back back' : Text) :
    (Record.read clock dialect (tokens (body (front ++ '"' :: back)))).map
        (fun record => record.header.fixed) =
      (Record.read clock dialect' (tokens (body (front ++ '"' :: back')))).map
        (fun record => record.header.fixed) := by
  obtain ⟨hlen, hfixed⟩ := h.fixed_tokens back
  obtain ⟨hlen', hfixed'⟩ := h.fixed_tokens back'
  have hshared (i : Nat) (hi : i < userMinimum) :
      (tokens (body (front ++ '"' :: back)))[i]? = (tokens (body (front ++ '"' :: back')))[i]? :=
    (hfixed i hi).trans (hfixed' i hi).symm
  generalize tokens (body (front ++ '"' :: back)) = xs at *
  generalize tokens (body (front ++ '"' :: back')) = ys at *
  have hhead : Header.headTokens ≤ userMinimum := by decide
  have hpid := List.getElem?_eq_getElem (Nat.lt_of_lt_of_le (by decide : 15 < userMinimum) hlen)
  have htid := List.getElem?_eq_getElem (Nat.lt_of_lt_of_le (by decide : 18 < userMinimum) hlen)
  rw [Record.map_fixed_read clock hdialect (hhead.trans hlen) hlen hpid htid,
    Record.map_fixed_read clock hdialect' (hhead.trans hlen') hlen'
      ((hshared 15 (by decide)).symm.trans hpid) ((hshared 18 (by decide)).symm.trans htid)]
  exact Header.read_congr clock _ _ (fun i hi => hshared i (Nat.lt_of_lt_of_le hi hhead)) _ _ _

/-- The counts after a step, and how many events it draws on the user view. -/
structure Counts where
  auxiliary : Nat
  switches : Nat
  signals : Nat
  blocks : Nat
  ignored : Nat
  unknown : Nat
  userEvents : Nat
  deriving DecidableEq, Repr

def Step.counts (s : Step) : Counts where
  auxiliary := s.progress.tally.auxiliary
  switches := s.progress.tally.switches
  signals := s.progress.tally.signals
  blocks := s.progress.tally.blocks
  ignored := s.progress.tally.ignored
  unknown := s.progress.tally.unknown
  userEvents := (s.drawn.filter fun d => d.origin = .user).length

theorem Drawn.length_filter_of (origin sought : Origin) (events : List Event) :
    ((of origin events).filter fun d => d.origin = sought).length =
      if origin = sought then events.length else 0 := by
  by_cases h : origin = sought
  · simp [of, List.filter_map, Function.comp_def, h]
  · simp [of, List.filter_map, Function.comp_def, h]

/-- How many events a tracepoint makes on the user view. -/
def Tracepoint.userEventCount (tracepoint : Tracepoint) (dialect : Dialect) : Nat :=
  match dialect, tracepoint.onUserView with
  | .plain, .event _ | .structured, .event _ => 1
  | .structured, .object => 4
  | _, _ => 0

theorem UserRecord.length_userEvents (u : UserRecord) (tracepoint : Tracepoint) :
    (u.userEvents tracepoint).length = tracepoint.userEventCount u.dialect := by
  cases u with
  | plain s => cases tracepoint <;> rfl
  | structured b => cases tracepoint <;> rfl

namespace Job

/-- What a user record counts, which is said by its dialect and its fixed fields. -/
def userCounts (job : Job) (t : Tally) (dialect : Dialect) (h : Header) : Counts :=
  let ignored := job.settings.ignores h.process h.provider
  let tracepoint := Tracepoint.find? dialect h.event
  let shown := !ignored && job.selects h.process && job.views.user
  { auxiliary := t.auxiliary
    switches := t.switches
    signals := t.signals + (dialect == .plain).toNat
    blocks := t.blocks + (dialect == .structured).toNat
    ignored := t.ignored + ignored.toNat
    unknown := t.unknown + (!ignored && tracepoint.isNone).toNat
    userEvents := if shown then tracepoint.elim 0 fun found => found.userEventCount dialect else 0 }

theorem userEvents_drawUser (job : Job) (u : UserRecord) :
    ((job.drawUser u).filter fun d => d.origin = .user).length =
      if job.selects u.header.process && job.views.user then
        (Tracepoint.find? u.dialect u.header.event).elim 0 fun found =>
          found.userEventCount u.dialect
      else 0 := by
  unfold drawUser drawable?
  cases job.selects u.header.process with
  | false => rfl
  | true =>
    cases Tracepoint.find? u.dialect u.header.event with
    | none => simp
    | some tracepoint =>
      simp only [if_true, List.filter_append, List.length_append, Drawn.length_filter_of,
        reduceCtorEq, if_false, Bool.true_and, Option.elim_some, Nat.add_zero]
      cases job.views.user with
      | false => rfl
      | true => exact u.length_userEvents tracepoint

theorem stepUser_counts (job : Job) (p : Progress) (u : UserRecord) :
    (job.stepUser p u).counts = job.userCounts p.tally u.dialect u.header := by
  have hcount : p.tally.countUser u = { p.tally with
      signals := p.tally.signals + (u.dialect == .plain).toNat
      blocks := p.tally.blocks + (u.dialect == .structured).toNat } := by
    cases u with
    | plain s => rfl
    | structured b => rfl
  simp only [stepUser, hcount, userCounts, Step.counts]
  cases job.settings.ignores u.header.process u.header.provider with
  | true => rfl
  | false =>
    simp only [Bool.false_eq_true, if_false, userEvents_drawUser]
    cases Tracepoint.find? u.dialect u.header.event with
    | none => rfl
    | some tracepoint => rfl

/-- What a user line counts, when its fixed fields are read, and otherwise. -/
theorem step_counts_of_user (job : Job) (p : Progress) {raw : Text}
    (hshown : Line.isBlank (Line.body raw) = false)
    (hother : Line.describesBinary (Line.body raw) = false)
    (huser : Line.provider? (Line.tokens (Line.body raw)) ≠ some Line.switchName) :
    (job.step p raw).counts =
      match (Record.read job.clock (Line.userDialect (Line.body raw))
          (Line.tokens (Line.body raw))).map (fun record => record.header.fixed) with
      | .error _ => (⟨p, [], none⟩ : Step).counts
      | .ok header => job.userCounts p.tally (Line.userDialect (Line.body raw)) header := by
  have hrecord := Line.record_of_shown job.clock hshown hother
  rw [if_neg huser] at hrecord
  rw [step_eq, hrecord, p.tally.countLine_of_shown hshown hother]
  cases hread : Record.read job.clock _ _ with
  | error fault => rfl
  | ok record =>
    have hdialect := Record.dialect_of_read hread
    cases record with
    | switch s => exact absurd hdialect.symm (Line.userDialect_ne_kernel _)
    | user u =>
      rw [← hdialect]
      exact job.stepUser_counts { p with tally := p.tally.countAttempt raw } u

theorem step_counts_of_auxiliary (job : Job) (p : Progress) {raw : Text}
    (hshown : Line.isBlank (Line.body raw) = false)
    (hother : Line.describesBinary (Line.body raw) = true) :
    (job.step p raw).counts =
      { (⟨p, [], none⟩ : Step).counts with auxiliary := p.tally.auxiliary + 1 } := by
  rw [step_eq, Line.record_of_passed job.clock (by rw [hother, Bool.or_true])]
  simp only [Tally.countLine, hshown, hother, Bool.false_eq_true, if_false, if_true]
  rfl

/-- A user line is counted as auxiliary for its marks alone. -/
theorem auxiliary_step (job : Job) (p : Progress) {raw : Text}
    (hshown : Line.isBlank (Line.body raw) = false)
    (huser : Line.provider? (Line.tokens (Line.body raw)) ≠ some Line.switchName) :
    (job.step p raw).counts.auxiliary =
      p.tally.auxiliary + (Line.describesBinary (Line.body raw)).toNat := by
  cases hother : Line.describesBinary (Line.body raw) with
  | true =>
    rw [job.step_counts_of_auxiliary p hshown hother]
    rfl
  | false =>
    rw [job.step_counts_of_user p hshown hother huser]
    split
    · rfl
    · rfl

theorem userCounts_inj (job : Job) (t : Tally) {dialect dialect' : Dialect}
    (hdialect : dialect ≠ .kernel) (hdialect' : dialect' ≠ .kernel) (h : Header) :
    job.userCounts t dialect h = job.userCounts t dialect' h ↔ dialect = dialect' := by
  refine ⟨fun heq => ?_, fun heq => heq ▸ rfl⟩
  have hsignals : t.signals + (dialect == .plain).toNat = t.signals + (dialect' == .plain).toNat :=
    congrArg Counts.signals heq
  have hplain : (dialect == .plain) = (dialect' == .plain) :=
    Function.LeftInverse.injective Bool.ofNat_toNat (Nat.add_left_cancel hsignals)
  revert hdialect hdialect' hplain
  cases dialect <;> cases dialect' <;> decide

/-- What stands in the quotes of a payload decides how its line counts, and how many events it draws
on the user view, only through the marks that lines are told apart by: whether it is auxiliary, and
if it is not, the dialect in which it is read. -/
theorem counts_alike_iff (job : Job) (p : Progress) {front : Text}
    (hfront : Line.QuotesPayload front)
    (huser : Line.provider? (Line.tokens (Line.body (front ++ ['"']))) ≠ some Line.switchName)
    (v w back : Text) :
    let line (value : Text) : Text := front ++ '"' :: value ++ '"' :: back
    (job.step p (line v)).counts = (job.step p (line w)).counts ↔
      Line.describesBinary (Line.body (line v)) = Line.describesBinary (Line.body (line w)) ∧
        (Line.describesBinary (Line.body (line v)) = true ∨
          Line.userDialect (Line.body (line v)) = Line.userDialect (Line.body (line w)) ∨
          (Line.record job.clock (line v)).isOk = false) := by
  intro line
  have hline (value : Text) : line value = front ++ '"' :: (value ++ '"' :: back) := by
    simp [line]
  have hshown (value : Text) : Line.isBlank (Line.body (line value)) = false :=
    Line.not_isBlank_of_mem_quote (by simp [line])
  have hprovider (value : Text) :
      Line.provider? (Line.tokens (Line.body (line value))) ≠ some Line.switchName := by
    rw [hline, hfront.provider?_eq]
    exact huser
  have hfixed := hfront.fixed_records job.clock
    (Line.userDialect_ne_kernel (Line.body (line v)))
    (Line.userDialect_ne_kernel (Line.body (line w))) (v ++ '"' :: back) (w ++ '"' :: back)
  rw [← hline, ← hline] at hfixed
  by_cases hsame : Line.describesBinary (Line.body (line v)) =
      Line.describesBinary (Line.body (line w))
  · cases hv : Line.describesBinary (Line.body (line v)) with
    | true =>
      rw [job.step_counts_of_auxiliary p (hshown v) hv,
        job.step_counts_of_auxiliary p (hshown w) (hsame ▸ hv), ← hsame, hv]
      simp
    | false =>
      have hrecord := Line.record_of_shown job.clock (hshown v) hv
      rw [if_neg (hprovider v)] at hrecord
      rw [job.step_counts_of_user p (hshown v) hv (hprovider v),
        job.step_counts_of_user p (hshown w) (hsame ▸ hv) (hprovider w), ← hfixed, hrecord,
        ← hsame, hv]
      cases Record.read job.clock _ (Line.tokens (Line.body (line v))) with
      | error fault => simp [Except.map, Except.isOk, Except.toBool]
      | ok record =>
        have hdialects := job.userCounts_inj p.tally
          (Line.userDialect_ne_kernel (Line.body (line v)))
          (Line.userDialect_ne_kernel (Line.body (line w))) record.header.fixed
        simp only [Except.map, hdialects]
        simp [Except.isOk, Except.toBool]
  · refine iff_of_false (fun heq => hsame ?_) fun h => hsame h.1
    have haux := congrArg Counts.auxiliary heq
    rw [job.auxiliary_step p (hshown v) (hprovider v),
      job.auxiliary_step p (hshown w) (hprovider w)] at haux
    exact Function.LeftInverse.injective Bool.ofNat_toNat (Nat.add_left_cancel haux)

/-- A message up to the value of its text, and what follows the value. -/
def messageFront : Text :=
  ("[10.000100000] (+0.000001000) host pmtrace:message: \x7b cpu_id = 0 \x7d, ".toList ++
    "\x7b procname = \"App\", vpid = 100, vtid = 101 \x7d, \x7b text = ".toList)

def messageBack : Text := ", level = 2 \x7d\n".toList

/-- A message about a category counts as any other. -/
theorem counts_alike_category :
    let job := allViewsJob
    let p := (job.run [userLine "App", switchLine]).progress
    let line (value : Text) : Text := messageFront ++ '"' :: value ++ '"' :: messageBack
    Line.QuotesPayload messageFront ∧
      Line.provider? (Line.tokens (Line.body (messageFront ++ ['"']))) ≠ some Line.switchName ∧
      line "a".toList = userLine "App" ∧
      (job.step p (line "a".toList)).counts =
        (job.step p (line "cat, sched_switch".toList)).counts := by
  intro job p line
  have hfront : Line.QuotesPayload messageFront ∧
      Line.provider? (Line.tokens (Line.body (messageFront ++ ['"']))) ≠ some Line.switchName := by
    decide +kernel
  refine ⟨hfront.1, hfront.2, by decide +kernel, ?_⟩
  refine (counts_alike_iff job p hfront.1 hfront.2 _ _ messageBack).mpr ?_
  decide +kernel

/-- Two values of plain characters count the same in the quotes of a payload. -/
def CountsWhatever (job : Job) (p : Progress) (front back v w : Text) : Prop :=
  let line (value : Text) : Text := front ++ '"' :: value ++ '"' :: back
  (∀ c ∈ v ++ w, c ∉ ['"', '\\', '\t', '\n', '\r']) →
    (job.step p (line v)).counts = (job.step p (line w)).counts

instance (job : Job) (p : Progress) (front back v w : Text) :
    Decidable (CountsWhatever job p front back v w) :=
  inferInstanceAs (Decidable (_ → _))

/-- A message that says what auxiliary records say is left out, and one that says what structured
records say is read as one. -/
theorem not_countsWhatever :
    plan allViews Options.new = .ok allViewsJob ∧
      ((Line.tokens (Line.body (messageFront ++ ['"'])))[Line.providerIndex]?).map Line.colonParts =
        some ["pmtrace".toList, Tracepoint.message.name.toList] ∧
      ¬CountsWhatever allViewsJob allViewsJob.start messageFront messageBack
        "a".toList "bin_info".toList ∧
      ¬CountsWhatever allViewsJob allViewsJob.start messageFront messageBack
        "a".toList "cat payload".toList := by
  refine ⟨rfl, by decide +kernel, ?_, ?_⟩
  · decide +kernel
  · decide +kernel

end Job
end TraceReport
