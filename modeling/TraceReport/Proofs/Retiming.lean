import TraceReport.Proofs.Record

namespace TraceReport

/-- The same record at another time. -/
def Header.retime (time : Micros) (h : Header) : Header := { h with time }

def Switch.retime (time : Micros) (s : Switch) : Switch := ⟨s.header.retime time⟩

def UserRecord.retime (time : Micros) : UserRecord → UserRecord
  | .plain s => .plain { s with header := s.header.retime time }
  | .structured b => .structured ⟨b.header.retime time⟩

def Record.retime (time : Micros) : Record → Record
  | .switch s => .switch (s.retime time)
  | .user u => .user (u.retime time)

/-- The time of a stamp; zero if it has none. -/
def Clock.timeOf (clock : Clock) (stamp : Text) : Micros := (clock.micros? stamp).getD 0

/-- The same record, timed by another clock. -/
def Record.timedBy (clock : Clock) (record : Record) : Record :=
  record.retime (clock.timeOf record.header.stamp)

section

variable {clock other : Clock} {tokens : List Text}

/-- Two clocks tell the same header apart from its time, if they both tell a time of its stamp or
both do not. -/
theorem Header.read_timedBy
    (h : ∀ stamp ∈ tokens.head?, (other.micros? stamp).isSome = (clock.micros? stamp).isSome)
    (enough : headTokens ≤ tokens.length) (pidToken tidToken : Text) (payload : Payload) :
    Header.read other tokens enough pidToken tidToken payload =
      (Header.read clock tokens enough pidToken tidToken payload).map fun header =>
        header.retime (other.timeOf header.stamp) := by
  have : 13 ≤ tokens.length := enough
  have hfirst : tokens.head? = some tokens[0] := by
    rw [List.head?_eq_getElem?]
    exact List.getElem?_eq_getElem _
  have hboth := h _ hfirst
  unfold Header.read
  cases hother : other.micros? tokens[0] with
  | none =>
    have hclock : clock.micros? tokens[0] = none := by simpa [hother] using hboth
    simp [hother, hclock, bind, Except.bind, Except.map]
  | some time =>
    obtain ⟨old, hclock⟩ : ∃ old, clock.micros? tokens[0] = some old :=
      Option.isSome_iff_exists.mp (by simpa [hother] using hboth.symm)
    simp only [hother, hclock, bind, Except.bind]
    cases Header.core? (Header.without [' '] tokens[7]) with
    | error fault => rfl
    | ok core =>
      cases Header.integer? "process id" (Header.without [',', ' '] pidToken) with
      | error fault => rfl
      | ok pid =>
        cases Header.integer? "thread id" (Header.without [',', ' '] tidToken) with
        | error fault => rfl
        | ok tid => simp [pure, Except.pure, Except.map, Header.retime, Clock.timeOf, hother]

/-- Two clocks read the same record apart from its time. -/
theorem Record.read_timedBy (dialect : Dialect)
    (h : ∀ stamp ∈ tokens.head?, (other.micros? stamp).isSome = (clock.micros? stamp).isSome) :
    Record.read other dialect tokens =
      (Record.read clock dialect tokens).map (Record.timedBy other) := by
  cases dialect with
  | kernel =>
    simp only [Record.read, Switch.read]
    split
    · rw [Header.read_timedBy h]
      cases Header.read clock tokens _ _ _ _ with
      | error fault => rfl
      | ok header =>
        by_cases hempty : header.event.isEmpty = true
        · simp [bind, Except.bind, pure, Except.pure, Except.map, Header.retime, hempty,
            Record.timedBy, Record.retime, Switch.retime, Record.header]
        · simp [bind, Except.bind, pure, Except.pure, Except.map, Header.retime, hempty,
            Record.timedBy, Record.retime, Switch.retime, Record.header]
    · rfl
  | plain =>
    simp only [Record.read, Signal.read]
    split
    · generalize Payload.plain _ = parts
      obtain ⟨payload, scope⟩ := parts
      simp only [Header.read_timedBy h]
      cases Header.read clock tokens _ _ _ _ with
      | error fault => rfl
      | ok header => rfl
    · rfl
  | structured =>
    simp only [Record.read, Block.read]
    split
    · generalize Payload.structured _ = payload
      simp only [Header.read_timedBy h]
      cases Header.read clock tokens _ _ _ _ with
      | error fault => rfl
      | ok header => rfl
    · rfl

end

end TraceReport
