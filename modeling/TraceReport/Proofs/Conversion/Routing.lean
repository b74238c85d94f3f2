import TraceReport.Proofs.Conversion.Rejection
import TraceReport.Proofs.Line.Tokens

namespace TraceReport

/-- The names of a header are the parts of the provider token. -/
theorem Header.names_of_read {clock : Clock} {tokens : List Text}
    {enough : headTokens ≤ tokens.length} {pidToken tidToken : Text} {payload : Payload}
    {h : Header}
    (hread : read clock tokens enough pidToken tidToken payload = .ok h) :
    ∃ token, tokens[Line.providerIndex]? = some token ∧
      h.provider = ((Line.colonParts token)[0]?).getD [] ∧
      h.event = ((Line.colonParts token)[1]?).getD [] := by
  have : 13 ≤ tokens.length := enough
  unfold read at hread
  cases hm : clock.micros? tokens[0] with
  | none => simp [hm, bind, Except.bind] at hread
  | some found =>
    simp only [hm] at hread
    obtain ⟨time, -, hread⟩ := bind_eq_ok_iff.mp hread
    obtain ⟨core, -, hread⟩ := bind_eq_ok_iff.mp hread
    obtain ⟨pid, -, hread⟩ := bind_eq_ok_iff.mp hread
    obtain ⟨tid, -, hread⟩ := bind_eq_ok_iff.mp hread
    obtain rfl := Except.ok.inj hread
    exact ⟨tokens[3], List.getElem?_eq_getElem _, rfl, rfl⟩

namespace Line

/-- The provider that the tokens of a line name. -/
def provider? (tokens : List Text) : Option Text :=
  (tokens[providerIndex]?).bind fun token => (colonParts token).head?

theorem namesSwitch_iff {tokens : List Text} :
    namesSwitch tokens = true ↔ provider? tokens = some switchName := by
  unfold namesSwitch provider?
  cases tokens[providerIndex]? with
  | none => simp
  | some token => exact beq_iff_eq

/-- A part between colons stands in its token. -/
theorem infix_of_mem_colonParts {token part : Text} (h : part ∈ colonParts token) :
    part <:+: token := by
  rw [colonParts, Text.splitAt_eq_splitOn, List.splitOn_eq_splitOnP] at h
  obtain ⟨stretch, hstretch, rfl⟩ := List.mem_map.mp (List.mem_filter.mp h).1
  exact (Text.trim_infix stretch).trans (Text.infix_of_mem_splitOnP hstretch)

theorem mentions_provider {line provider : Text} (h : provider? (tokens line) = some provider) :
    line.mentions provider = true := by
  obtain ⟨token, htoken, hpart⟩ := Option.bind_eq_some_iff.mp h
  exact Text.mentions_iff_infix.mpr
    ((infix_of_mem_colonParts (List.mem_of_head? hpart)).trans
      (infix_of_mem_tokens (List.mem_of_getElem? htoken)))

/-- The test of the whole line adds nothing to that of the provider. -/
theorem dialect_of_provider (line : Text) :
    dialect line (tokens line) =
      if provider? (tokens line) = some switchName then .kernel else userDialect line := by
  unfold dialect
  by_cases hprovider : provider? (tokens line) = some switchName
  · rw [mentions_provider hprovider, namesSwitch_iff.mpr hprovider, if_pos hprovider]
    rfl
  · have hnames : namesSwitch (tokens line) = false :=
      Bool.eq_false_iff.mpr (mt namesSwitch_iff.mp hprovider)
    rw [hnames, Bool.and_false, if_neg hprovider]
    rfl

/-- A line that is neither blank nor auxiliary is read in the dialect that its provider gives. -/
theorem record_of_shown (clock : Clock) {raw : Text} (hshown : isBlank (body raw) = false)
    (hother : describesBinary (body raw) = false) :
    record clock raw =
      (Record.read clock
        (if provider? (tokens (body raw)) = some switchName then .kernel
          else userDialect (body raw)) (tokens (body raw))).map some := by
  simp only [record, hshown, hother, Bool.or_self, dialect_of_provider]
  rfl

theorem reroutes_iff {raw : Text} :
    reroutes raw = true ↔ provider? (tokens (body raw)) ≠ some switchName ∧
      (body raw).mentions switchName = true := by
  rw [reroutes, isRerouted, Bool.and_eq_true, Bool.not_eq_true', Bool.eq_false_iff, ne_eq,
    namesSwitch_iff, and_comm]

/-- The name of a switch does not go over padding. -/
theorem switchName_infix_padding {c : Char} {rest : Text} :
    switchName <:+: c :: ' ' :: rest ↔ switchName <:+: rest := by
  have hname : switchName = 's' :: 'c' :: "hed_switch".toList := rfl
  have hinside : ¬switchName <+: c :: ' ' :: rest := fun h => by
    rw [hname, List.cons_prefix_cons, List.cons_prefix_cons] at h
    exact absurd h.2.1 (by decide)
  have hspace : ¬switchName <+: ' ' :: rest := fun h => by
    rw [hname, List.cons_prefix_cons] at h
    exact absurd h.1 (by decide)
  rw [List.infix_cons_iff, or_iff_right hinside, List.infix_cons_iff, or_iff_right hspace]

theorem switchName_prefix_padding {c : Char} {rest : Text} :
    switchName <+: c :: rest ↔ "s ched_switch".toList <+: c :: ' ' :: rest := by
  have hname : switchName = 's' :: 'c' :: "hed_switch".toList := rfl
  have hpadded : "s ched_switch".toList = 's' :: ' ' :: 'c' :: "hed_switch".toList := rfl
  rw [hname, hpadded, List.cons_prefix_cons, List.cons_prefix_cons, List.cons_prefix_cons,
    and_iff_right (Eq.refl ' ')]

/-- What a line mentions does not depend on line end and padding, but for one spelling of the name
of a switch with the padding in it. -/
theorem mentions_body_iff {raw : Text} :
    (body raw).mentions switchName = true ↔
      raw.mentions switchName = true ∨ "s ched_switch".toList <+: raw := by
  obtain ⟨ending, hraw, hends⟩ := Text.exists_append_dropEndWhile isLineEnd raw
  have hkept {sought : Text} (hsought : sought.all fun c => !isLineEnd c) :
      ∀ c ∈ ending, c ∉ sought := fun c hc hm => by
    simpa [hends c hc] using List.all_eq_true.mp hsought c hm
  have hmentions : raw.mentions switchName = true ↔
      switchName <:+: Text.dropEndWhile isLineEnd raw := by
    rw [Text.mentions_iff_infix]
    refine ⟨fun h => ?_, fun h => ?_⟩
    · rw [hraw] at h
      exact Text.infix_of_infix_append (hkept (by decide)) h
    · rw [hraw]
      exact h.trans (List.prefix_append _ _).isInfix
  have hpadded : "s ched_switch".toList <+: raw ↔
      "s ched_switch".toList <+: Text.dropEndWhile isLineEnd raw := by
    refine ⟨fun h => ?_, fun h => ?_⟩
    · rw [hraw] at h
      exact Text.prefix_of_prefix_append (hkept (by decide)) h
    · rw [hraw]
      exact h.trans (List.prefix_append _ _)
  rw [hmentions, hpadded, Text.mentions_iff_infix, body]
  split
  case h_1 c rest hsplit =>
    rw [hsplit, switchName_infix_padding, ← switchName_prefix_padding]
    split
    case isTrue => rw [List.infix_cons_iff, or_comm]
    case isFalse hwide =>
      have hc : ¬switchName <+: c :: rest := fun h =>
        hwide ((List.cons_prefix_cons.mp h).1 ▸ by decide)
      rw [switchName_infix_padding, or_iff_left hc]
  case h_2 hother =>
    refine ⟨.inl, fun h => h.elim id fun hprefix => ?_⟩
    obtain ⟨rest, hrest⟩ := hprefix
    exact absurd hrest.symm (hother 's' _)

end Line

/-- A switch that is read is named by its provider, and so is its event. -/
theorem Switch.named_of_read {clock : Clock} {tokens : List Text} {s : Switch}
    (h : Switch.read clock tokens = .ok s)
    (hprovider : Line.provider? tokens = some Line.switchName) :
    s.header.provider = Line.switchName ∧ s.header.event ≠ [] := by
  unfold Switch.read at h
  split at h
  · obtain ⟨header, hread, hs⟩ := bind_eq_ok_iff.mp h
    obtain ⟨token, htoken, hname, -⟩ := Header.names_of_read hread
    rw [Line.provider?, htoken, Option.bind_some, List.head?_eq_getElem?] at hprovider
    rw [hprovider, Option.getD_some] at hname
    obtain rfl := Except.ok.inj hs
    split
    case isTrue hempty => exact ⟨hname, hname ▸ List.cons_ne_nil _ _⟩
    case isFalse hevent => exact ⟨hname, fun hnil => hevent (by rw [hnil]; rfl)⟩
  · simp at h

theorem Tally.countUser_rerouted (tally : Tally) (u : UserRecord) :
    (tally.countUser u).rerouted = tally.rerouted := by
  cases u with
  | plain s => rfl
  | structured b => rfl

namespace Job

theorem stepRecord_rerouted (job : Job) (p : Progress) (record : Record) :
    (job.stepRecord p record).progress.tally.rerouted = p.tally.rerouted := by
  cases record with
  | switch s =>
    simp only [stepRecord, stepSwitch]
    split
    · rfl
    · cases s.incoming with
      | error fault => rfl
      | ok next => rfl
  | user u =>
    simp only [stepRecord, stepUser]
    split
    · exact Tally.countUser_rerouted p.tally u
    · split
      · exact Tally.countUser_rerouted p.tally u
      · exact Tally.countUser_rerouted p.tally u

/-- The provider of a line decides alone whether it is read as a switch; any other line is read in
its dialect as a user record, and counted if it mentions a switch, with its padding or without. -/
theorem routed_by_provider (job : Job) (p : Progress) {raw : Text}
    (hshown : Line.isBlank (Line.body raw) = false)
    (hother : Line.describesBinary (Line.body raw) = false) :
    let line := Line.body raw
    let tokens := Line.tokens line
    let provider := Line.provider? tokens
    let dialect := if provider = some Line.switchName then .kernel else Line.userDialect line
    let rerouted :=
      if provider ≠ some Line.switchName ∧ line.mentions Line.switchName = true then 1 else 0
    let counted := { p with tally := { p.tally with
      lines := p.tally.lines + 1
      rerouted := p.tally.rerouted + rerouted } }
    (dialect = .kernel ↔ provider = some Line.switchName) ∧
    (line.mentions Line.switchName = true ↔
      raw.mentions Line.switchName = true ∨ "s ched_switch".toList <+: raw) ∧
    (job.step p raw = match Record.read job.clock dialect tokens with
      | .error fault => ⟨counted, [], some fault⟩
      | .ok record => job.stepRecord counted record) ∧
    (job.step p raw).progress.tally.rerouted = p.tally.rerouted + rerouted ∧
    ∀ s, Record.read job.clock dialect tokens = .ok (.switch s) →
      s.header.provider = Line.switchName ∧ s.header.event ≠ [] := by
  intro line tokens provider dialect rerouted counted
  have hkernel : dialect = .kernel ↔ provider = some Line.switchName := by
    by_cases hprovider : provider = some Line.switchName
    · simp [dialect, hprovider]
    · simp [dialect, hprovider, Line.userDialect_ne_kernel]
  have hrerouted : (Line.reroutes raw).toNat = rerouted := by
    by_cases hmentions : provider ≠ some Line.switchName ∧ line.mentions Line.switchName = true
    · rw [Line.reroutes_iff.mpr hmentions]
      exact (if_pos hmentions).symm
    · rw [Bool.eq_false_iff.mpr (mt Line.reroutes_iff.mp hmentions)]
      exact (if_neg hmentions).symm
  have hrecord : Line.record job.clock raw =
      (Record.read job.clock dialect tokens).map some :=
    Line.record_of_shown job.clock hshown hother
  have hstep : job.step p raw = match Record.read job.clock dialect tokens with
      | .error fault => ⟨counted, [], some fault⟩
      | .ok record => job.stepRecord counted record := by
    have hcounted : p.tally.countLine raw = counted.tally := by
      rw [p.tally.countLine_of_shown hshown hother, Tally.countAttempt, hrerouted]
    rw [step_eq, hrecord, hcounted]
    cases Record.read job.clock dialect tokens with
    | error fault => rfl
    | ok record => rfl
  refine ⟨hkernel, Line.mentions_body_iff, hstep, ?_, fun s hs => ?_⟩
  · rw [hstep]
    cases Record.read job.clock dialect tokens with
    | error fault => rfl
    | ok record => exact job.stepRecord_rerouted counted record
  · have hdialect : dialect = .kernel := (Record.dialect_of_read hs).symm
    rw [hdialect] at hs
    obtain ⟨found, hread, hfound⟩ := map_eq_ok_iff.mp hs
    obtain rfl := Record.switch.inj hfound
    exact Switch.named_of_read hread (hkernel.mp hdialect)

/-- A user line that mentions a switch in its payload is rerouted, and a switch is not. -/
theorem routed_by_provider_both :
    let job := allViewsJob
    let p := (job.run [userLine "App"]).progress
    (Line.isBlank (Line.body mentioningLine) = false ∧
      Line.describesBinary (Line.body mentioningLine) = false ∧
      Line.provider? (Line.tokens (Line.body mentioningLine)) = some "pmtrace".toList ∧
      (job.step p mentioningLine).progress.tally.rerouted = 1) ∧
    Line.isBlank (Line.body switchLine) = false ∧
      Line.describesBinary (Line.body switchLine) = false ∧
      (job.step p switchLine).progress.tally.rerouted = 0 ∧
      ∃ s, Record.read job.clock .kernel (Line.tokens (Line.body switchLine)) = .ok (.switch s) ∧
        s.header.provider = Line.switchName ∧ s.header.event ≠ [] := by
  intro job p
  have hstart : p.tally.rerouted = 0 := by decide +kernel
  have hmentioning : Line.isBlank (Line.body mentioningLine) = false ∧
      Line.describesBinary (Line.body mentioningLine) = false ∧
      Line.provider? (Line.tokens (Line.body mentioningLine)) = some "pmtrace".toList ∧
      (Line.body mentioningLine).mentions Line.switchName = true := by decide +kernel
  have hswitch : Line.isBlank (Line.body switchLine) = false ∧
      Line.describesBinary (Line.body switchLine) = false ∧
      Line.provider? (Line.tokens (Line.body switchLine)) = some Line.switchName ∧
      (Record.read job.clock .kernel (Line.tokens (Line.body switchLine))).isOk := by
    decide +kernel
  obtain ⟨hshown, hother, hprovider, hmentions⟩ := hmentioning
  have hreroutes : Line.provider? (Line.tokens (Line.body mentioningLine)) ≠ some Line.switchName ∧
      (Line.body mentioningLine).mentions Line.switchName = true := by
    rw [hprovider]
    exact ⟨by decide, hmentions⟩
  obtain ⟨-, -, -, hcount, -⟩ := routed_by_provider job p hshown hother
  obtain ⟨hshown', hother', hprovider', hok⟩ := hswitch
  obtain ⟨-, -, -, hcount', hnamed⟩ := routed_by_provider job p hshown' hother'
  obtain ⟨record, hread⟩ := exists_ok_of_isOk hok
  obtain ⟨s, rfl⟩ : ∃ s, record = .switch s := by
    cases record with
    | switch s => exact ⟨s, rfl⟩
    | user u =>
      have hdialect := Record.dialect_of_read hread
      cases u <;> cases hdialect
  rw [if_pos hprovider'] at hnamed
  refine ⟨⟨hshown, hother, hprovider, ?_⟩, hshown', hother', ?_, s, hread, hnamed s hread⟩
  · rw [hcount, if_pos hreroutes, hstart]
  · rw [hcount', if_neg fun h => h.1 hprovider', hstart]

end Job
end TraceReport
