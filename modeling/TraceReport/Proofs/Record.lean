import TraceReport.Proofs.Outcome
import TraceReport.Record

namespace TraceReport

namespace Header

theorem integer?_eq_ok_iff {field : String} {value : Text} {n : Int} :
    integer? field value = .ok n ↔ Numeral.integer? value = some n := by
  unfold integer?
  cases Numeral.integer? value with
  | none => simp
  | some m => simp

/-- Where the fixed fields of a header that is read come from. -/
theorem read_eq_ok {clock : Clock} {tokens : List Text} {enough : headTokens ≤ tokens.length}
    {pidToken tidToken : Text} {payload : Payload} {h : Header}
    (hread : read clock tokens enough pidToken tidToken payload = .ok h) :
    h.payload = payload ∧ tokens.head? = some h.stamp ∧ clock.micros? h.stamp = some h.time ∧
      core? h.cpu = .ok h.core ∧
      Numeral.integer? (without [',', ' '] pidToken) = some h.pid ∧
      Numeral.integer? (without [',', ' '] tidToken) = some h.tid := by
  have : 13 ≤ tokens.length := enough
  unfold read at hread
  cases hm : clock.micros? tokens[0] with
  | none => simp [hm, bind, Except.bind] at hread
  | some found =>
    simp only [hm] at hread
    obtain ⟨time, htime, hread⟩ := bind_eq_ok_iff.mp hread
    obtain ⟨core, hcore, hread⟩ := bind_eq_ok_iff.mp hread
    obtain ⟨pid, hpid, hread⟩ := bind_eq_ok_iff.mp hread
    obtain ⟨tid, htid, hread⟩ := bind_eq_ok_iff.mp hread
    obtain rfl := Except.ok.inj htime
    obtain rfl := Except.ok.inj hread
    have hfirst : tokens.head? = some tokens[0] := by
      rw [List.head?_eq_getElem?]
      exact List.getElem?_eq_getElem _
    exact ⟨rfl, hfirst, hm, hcore, integer?_eq_ok_iff.mp hpid, integer?_eq_ok_iff.mp htid⟩

theorem core?_ne_badTimestamp (cpu stamp : Text) : core? cpu ≠ .error (.badTimestamp stamp) := by
  unfold core?
  split <;> simp

theorem integer?_ne_badTimestamp (field : String) (value stamp : Text) :
    integer? field value ≠ .error (.badTimestamp stamp) := by
  unfold integer?
  split <;> simp

/-- A header that fails for a stamp fails for its first token. -/
theorem read_eq_badTimestamp_iff {clock : Clock} {stamp other : Text} {rest : List Text}
    {enough : headTokens ≤ (stamp :: rest).length} {pidToken tidToken : Text} {payload : Payload} :
    read clock (stamp :: rest) enough pidToken tidToken payload = .error (.badTimestamp other) ↔
      other = stamp ∧ clock.micros? stamp = none := by
  have : 13 ≤ (stamp :: rest).length := enough
  simp only [read, List.getElem_cons_zero]
  cases clock.micros? stamp with
  | none => simp [bind, Except.bind, eq_comm]
  | some time =>
    simp only [reduceCtorEq, and_false, iff_false]
    intro h
    obtain h | ⟨_, -, h⟩ := bind_eq_error_iff.mp h
    · simp at h
    obtain h | ⟨_, -, h⟩ := bind_eq_error_iff.mp h
    · exact core?_ne_badTimestamp _ _ h
    obtain h | ⟨_, -, h⟩ := bind_eq_error_iff.mp h
    · exact integer?_ne_badTimestamp _ _ _ h
    obtain h | ⟨_, -, h⟩ := bind_eq_error_iff.mp h
    · exact integer?_ne_badTimestamp _ _ _ h
    · simp [pure, Except.pure] at h

/-- The payload of a header is only kept. -/
theorem read_eq_map (clock : Clock) {tokens : List Text}
    (enough : headTokens ≤ tokens.length) (pidToken tidToken : Text) (payload : Payload) :
    read clock tokens enough pidToken tidToken payload =
      (read clock tokens enough pidToken tidToken []).map fun header =>
        { header with payload } := by
  have : 13 ≤ tokens.length := enough
  unfold read
  dsimp only
  cases clock.micros? tokens[0] with
  | none => rfl
  | some time =>
    cases core? (without [' '] tokens[7]) with
    | error e => rfl
    | ok core =>
      cases integer? "process id" (without [',', ' '] pidToken) with
      | error e => rfl
      | ok pid =>
        cases integer? "thread id" (without [',', ' '] tidToken) with
        | error e => rfl
        | ok tid => rfl

end Header

/-- A switch is about one id. -/
theorem Switch.read_pid_eq_tid {clock : Clock} {tokens : List Text} {s : Switch}
    (h : Switch.read clock tokens = .ok s) : s.header.pid = s.header.tid := by
  unfold Switch.read at h
  split at h
  · obtain ⟨header, hread, hs⟩ := bind_eq_ok_iff.mp h
    obtain ⟨-, -, -, -, hpid, htid⟩ := Header.read_eq_ok hread
    have heq : header.pid = header.tid := Option.some.inj (hpid.symm.trans htid)
    obtain rfl := Except.ok.inj hs
    split
    · exact heq
    · exact heq
  · simp at h

theorem Block.payload_of_read {clock : Clock} {tokens : List Text} {b : Block}
    (h : Block.read clock tokens = .ok b) :
    b.header.payload = Payload.structured (Text.joinWith [' '] (tokens.drop userMinimum)) := by
  unfold Block.read at h
  split at h
  · obtain ⟨header, hread, hb⟩ := bind_eq_ok_iff.mp h
    obtain rfl := Except.ok.inj hb
    exact (Header.read_eq_ok hread).1
  · simp at h

theorem Record.dialect_of_read {clock : Clock} {dialect : Dialect} {tokens : List Text}
    {record : Record} (h : Record.read clock dialect tokens = .ok record) :
    record.dialect = dialect := by
  cases dialect with
  | kernel | plain | structured =>
    obtain ⟨part, -, rfl⟩ := map_eq_ok_iff.mp h
    rfl

/-- How many tokens a record of the dialect has at least. -/
def Dialect.minimum : Dialect → Nat
  | .kernel => Switch.minimum
  | .plain | .structured => userMinimum

theorem Record.read_of_short (clock : Clock) {dialect : Dialect} {tokens : List Text}
    (h : tokens.length < dialect.minimum) :
    Record.read clock dialect tokens =
      .error (.tooFewTokens dialect tokens.length dialect.minimum) := by
  cases dialect with
  | kernel =>
    have hshort : ¬Switch.minimum ≤ tokens.length := Nat.not_le_of_lt h
    simp only [Record.read, Switch.read, dif_neg hshort]
    rfl
  | plain =>
    have hshort : ¬userMinimum ≤ tokens.length := Nat.not_le_of_lt h
    simp only [Record.read, Signal.read, dif_neg hshort]
    rfl
  | structured =>
    have hshort : ¬userMinimum ≤ tokens.length := Nat.not_le_of_lt h
    simp only [Record.read, Block.read, dif_neg hshort]
    rfl

/-- With tokens enough, what becomes of a record is what becomes of its header; the record keeps its
stamp and its time. -/
theorem Record.read_eq_map (clock : Clock) {dialect : Dialect} {tokens : List Text}
    (h : dialect.minimum ≤ tokens.length) :
    ∃ enough pidToken tidToken payload, ∃ record : Header → Record,
      Record.read clock dialect tokens =
          (Header.read clock tokens enough pidToken tidToken payload).map record ∧
        ∀ header, (record header).header.stamp = header.stamp ∧
          (record header).header.time = header.time := by
  cases dialect with
  | kernel =>
    have hlen : Switch.minimum ≤ tokens.length := h
    simp only [Record.read, Switch.read, dif_pos hlen]
    refine ⟨Nat.le_trans (by decide) hlen, _, _, _, fun header => .switch ⟨if header.event.isEmpty
      then { header with event := header.provider } else header⟩, map_bind_ok _ _ _,
      fun header => ?_⟩
    simp only [Record.header]
    split <;> exact ⟨rfl, rfl⟩
  | plain =>
    have hlen : userMinimum ≤ tokens.length := h
    simp only [Record.read, Signal.read, dif_pos hlen]
    generalize Payload.plain _ = parts
    obtain ⟨payload, scope⟩ := parts
    exact ⟨Nat.le_trans (by decide) hlen, _, _, _, fun header => .user (.plain ⟨header, scope.getD
      (if Signal.selfNamed.contains header.event then header.event else [])⟩), map_bind_ok _ _ _,
      fun header => ⟨rfl, rfl⟩⟩
  | structured =>
    have hlen : userMinimum ≤ tokens.length := h
    simp only [Record.read, Block.read, dif_pos hlen]
    exact ⟨Nat.le_trans (by decide) hlen, _, _, _, fun header => .user (.structured ⟨header⟩),
      map_bind_ok _ _ _, fun header => ⟨rfl, rfl⟩⟩

theorem Record.minimum_of_read {clock : Clock} {dialect : Dialect} {tokens : List Text}
    {record : Record} (h : Record.read clock dialect tokens = .ok record) :
    dialect.minimum ≤ tokens.length := by
  cases dialect with
  | kernel =>
    obtain ⟨s, hs, -⟩ := map_eq_ok_iff.mp h
    unfold Switch.read at hs
    split at hs
    · assumption
    · simp at hs
  | plain =>
    obtain ⟨s, hs, -⟩ := map_eq_ok_iff.mp h
    unfold Signal.read at hs
    split at hs
    · assumption
    · simp at hs
  | structured =>
    obtain ⟨b, hb, -⟩ := map_eq_ok_iff.mp h
    unfold Block.read at hb
    split at hb
    · assumption
    · simp at hb

/-- Every record is read with a header, and keeps its stamp and its time. -/
theorem Record.header_of_read {clock : Clock} {dialect : Dialect} {tokens : List Text}
    {record : Record} (h : Record.read clock dialect tokens = .ok record) :
    ∃ enough pidToken tidToken payload header,
      Header.read clock tokens enough pidToken tidToken payload = .ok header ∧
        record.header.stamp = header.stamp ∧ record.header.time = header.time := by
  obtain ⟨enough, pidToken, tidToken, payload, whole, hmap, hkept⟩ :=
    Record.read_eq_map clock (Record.minimum_of_read h)
  rw [hmap] at h
  obtain ⟨header, hread, rfl⟩ := map_eq_ok_iff.mp h
  exact ⟨enough, pidToken, tidToken, payload, header, hread, hkept header⟩

/-- The time of a record is that of its stamp. -/
theorem Record.micros?_of_read {clock : Clock} {dialect : Dialect} {tokens : List Text}
    {record : Record} (h : Record.read clock dialect tokens = .ok record) :
    clock.micros? record.header.stamp = some record.header.time := by
  obtain ⟨_, _, _, _, header, hread, hstamp, htime⟩ := Record.header_of_read h
  rw [hstamp, htime]
  exact (Header.read_eq_ok hread).2.2.1

/-- A record is stamped by the first token of its line. -/
theorem Record.head?_of_read {clock : Clock} {dialect : Dialect} {tokens : List Text}
    {record : Record} (h : Record.read clock dialect tokens = .ok record) :
    tokens.head? = some record.header.stamp := by
  obtain ⟨_, _, _, _, header, hread, hstamp, -⟩ := Record.header_of_read h
  rw [hstamp]
  exact (Header.read_eq_ok hread).2.1

end TraceReport
