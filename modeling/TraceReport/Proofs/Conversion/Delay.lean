import TraceReport.Proofs.Conversion.CoreTime
import TraceReport.Proofs.Conversion.Naming
import TraceReport.Proofs.Load.Delay
import TraceReport.Proofs.Retiming

namespace TraceReport

/-- The same event so much later; what has no time stays as it is. -/
def Event.delay (span : Nat) (e : Event) : Event := { e with time := e.time.map (· + span) }

def Drawn.delay (span : Nat) (d : Drawn) : Drawn := { d with event := d.event.delay span }

/-- The same event so much later, at the end of a run; the reference counters of a load that has
seen no switch stay where they are. -/
def Drawn.delayWith (load : Load) (span : Nat) (d : Drawn) : Drawn :=
  if d.origin = .reference ∧ load.windowEnd = none then d else d.delay span

/-- The same record so much later. -/
def Record.delay (span : Nat) (record : Record) : Record :=
  record.retime (record.header.time + span)

/-- A state that is another one so much later; what was kept for the dumps does not count. -/
structure Progress.Delayed (span : Nat) (p later : Progress) : Prop where
  names : later.names = p.names
  load : later.load = p.load.delay span
  seen : later.seen = p.seen
  tally : later.tally = p.tally

section

variable (span : Nat)

theorem Drawn.of_delay (origin : Origin) (events : List Event) :
    Drawn.of origin (events.map (Event.delay span)) =
      (Drawn.of origin events).map (Drawn.delay span) := by
  simp only [Drawn.of, List.map_map]
  rfl

theorem Drawn.of_delayWith (load : Load) {origin : Origin} (h : origin ≠ .reference)
    (events : List Event) :
    (Drawn.of origin events).map (Drawn.delayWith load span) =
      Drawn.of origin (events.map (Event.delay span)) := by
  rw [of_delay]
  apply List.map_congr_left
  intro d hd
  rw [delayWith, if_neg (by simp [(mem_of.mp hd).1, h])]

theorem counters_delay (time : Micros) (shares : List Binary64) (total : Binary64) :
    counters (time + span) shares total =
      (counters time shares total).map (Event.delay span) := by
  simp only [counters, List.map_append, List.map_map]
  rfl

theorem Window.events_delay (w : Option Window) :
    (w.map (Window.delay span)).elim [] Window.events =
      (w.elim [] Window.events).map (Event.delay span) := by
  cases w with
  | none => rfl
  | some w => exact counters_delay span w.ending w.shares w.total

/-- The counters of a load that has seen a switch come later with it. -/
theorem Load.referenceEvents_delay (load : Load) :
    (load.delay span).referenceEvents =
      if load.windowEnd = none then load.referenceEvents
      else load.referenceEvents.map (Event.delay span) := by
  cases hw : load.windowEnd with
  | none => simp [referenceEvents, ending, delay, hw, cores]
  | some ending =>
    have hdelayed : (load.delay span).ending = load.ending + span := by
      simp [Load.ending, delay, hw]
    rw [referenceEvents, hdelayed, if_neg (by simp)]
    exact counters_delay span load.ending _ _

theorem Drawn.of_reference_delayWith (load : Load) :
    (Drawn.of .reference load.referenceEvents).map (Drawn.delayWith load span) =
      Drawn.of .reference (load.delay span).referenceEvents := by
  rw [Load.referenceEvents_delay]
  cases hw : load.windowEnd with
  | none =>
    refine (List.map_congr_left fun d hd => ?_).trans (List.map_id _)
    exact if_pos ⟨(mem_of.mp hd).1, hw⟩
  | some ending =>
    rw [if_neg (by simp), of_delay]
    exact List.map_congr_left fun d _ => if_neg (by simp [hw])

theorem UserRecord.userEvents_delay (u : UserRecord) (tracepoint : Tracepoint) :
    (u.retime (u.header.time + span)).userEvents tracepoint =
      (u.userEvents tracepoint).map (Event.delay span) := by
  cases u with
  | plain s | structured s =>
    simp only [UserRecord.retime, userEvents]
    cases tracepoint.onUserView <;> rfl

theorem UserRecord.groupEvents_delay (u : UserRecord) (groups : Groups) (tracepoint : Tracepoint) :
    (u.retime (u.header.time + span)).groupEvents groups tracepoint =
      (u.groupEvents groups tracepoint).map (Event.delay span) := by
  cases u with
  | plain s | structured s =>
    simp only [UserRecord.retime, groupEvents]
    cases tracepoint.onGroupView with
    | event phase =>
      rw [List.map_map]
      rfl
    | nothing | object => rfl

end

namespace Job

section

variable (job : Job) (span : Nat)

theorem scheduleEvents_delay (s : Switch) (phase : Phase) (task : Text) (tid? : Option ThreadId) :
    job.scheduleEvents (s.retime (s.header.time + span)) phase task tid? =
      (job.scheduleEvents s phase task tid?).map (Event.delay span) := by
  cases tid? with
  | none => rfl
  | some tid =>
    simp only [scheduleEvents]
    split_ifs <;> rfl

theorem switchEvents_delay (s : Switch) (next : Option ThreadId) :
    job.switchEvents (s.retime (s.header.time + span)) next =
      (job.switchEvents s next).map (Event.delay span) := by
  rw [switchEvents, switchEvents, scheduleEvents_delay, scheduleEvents_delay, List.map_append]
  rfl

theorem drawUser_delay (u : UserRecord) :
    job.drawUser (u.retime (u.header.time + span)) =
      (job.drawUser u).map (Drawn.delay span) := by
  have hdrawable : job.drawable? (u.retime (u.header.time + span)) = job.drawable? u := by
    cases u <;> rfl
  rw [drawUser, drawUser, hdrawable]
  cases job.drawable? u with
  | none => rfl
  | some tracepoint =>
    simp only [UserRecord.userEvents_delay, UserRecord.groupEvents_delay, List.map_append,
      ← Drawn.of_delay]
    split_ifs <;> rfl

theorem sightings_delay (u : UserRecord) :
    job.sightings (u.retime (u.header.time + span)) = job.sightings u := by
  have hdrawable : job.drawable? (u.retime (u.header.time + span)) = job.drawable? u := by
    cases u <;> rfl
  have hsighting : Groups.sighting (u.retime (u.header.time + span)).header.process
      (u.retime (u.header.time + span)).signal = Groups.sighting u.header.process u.signal := by
    cases u <;> rfl
  rw [sightings, sightings, hdrawable, hsighting]
  simp only [UserRecord.groupEvents_delay, List.isEmpty_map]

end

section

variable {job : Job} {p later : Progress} {span cores period : Nat}

/-- A switch that comes later does to a later state what it would do otherwise, so much later. -/
theorem stepSwitch_delay (h : p.Delayed span later) (hb : p.load.Bounded cores period)
    {s : Switch} (hfits : s.header.time + span + period ≤ Micros.limit) :
    let delayed := job.stepSwitch later (s.retime (s.header.time + span))
    (job.stepSwitch p s).progress.Delayed span delayed.progress ∧
      delayed.drawn = (job.stepSwitch p s).drawn.map (Drawn.delay span) ∧
      delayed.fault = (job.stepSwitch p s).fault := by
  intro delayed
  have hload : later.load = p.load.delay span := h.load
  cases hcpu : job.views.cpu with
  | false =>
    simp only [delayed, stepSwitch_off hcpu, h.tally]
    exact ⟨⟨h.names, hload, h.seen, rfl⟩, rfl, trivial⟩
  | true =>
    cases hnext : s.incoming with
    | error fault =>
      have hdelayed : (s.retime (s.header.time + span)).incoming = .error fault := hnext
      have hvacated : later.load.vacated (s.turn.delay span) =
          (p.load.vacated s.turn).delay span := by
        have hturn : s.turn.time + span + p.load.period ≤ Micros.limit :=
          hb.period_eq.symm ▸ hfits
        rw [hload]
        exact Load.vacated_delay hturn
      simp only [delayed, stepSwitch_error hcpu _ hnext, stepSwitch_error hcpu _ hdelayed,
        scheduleEvents_delay, Drawn.of_delay, h.names, h.tally]
      exact ⟨⟨rfl, hvacated, h.seen, rfl⟩, rfl, trivial⟩
    | ok next =>
      have hdelayed : (s.retime (s.header.time + span)).incoming = .ok next := hnext
      have htaken : later.load.take (s.retime (s.header.time + span)).turn =
          ((p.load.take s.turn).1.delay span,
            (p.load.take s.turn).2.map (Window.delay span)) := by
        have hturn : s.turn.time + span + period ≤ Micros.limit := hfits
        rw [hload]
        exact Load.take_delay hb hturn
      simp only [delayed, stepSwitch_eq hcpu _ hnext, stepSwitch_eq hcpu _ hdelayed, htaken,
        switchEvents_delay, Window.events_delay, Drawn.of_delay, List.map_append, h.names,
        h.tally]
      refine ⟨⟨rfl, rfl, h.seen, ?_⟩, trivial, trivial⟩
      cases (p.load.take s.turn).2 <;> rfl

/-- A user record does not look at the load at all. -/
theorem stepUser_delay (h : p.Delayed span later) (u : UserRecord) :
    let delayed := job.stepUser later (u.retime (u.header.time + span))
    (job.stepUser p u).progress.Delayed span delayed.progress ∧
      delayed.drawn = (job.stepUser p u).drawn.map (Drawn.delay span) ∧
      delayed.fault = (job.stepUser p u).fault := by
  intro delayed
  have hdrawn := job.drawUser_delay span u
  have hsightings := job.sightings_delay span u
  have hheader : (u.retime (u.header.time + span)).header =
      u.header.retime (u.header.time + span) := by cases u <;> rfl
  have hdialect : (u.retime (u.header.time + span)).dialect = u.dialect := by cases u <;> rfl
  have hcount (tally : Tally) :
      tally.countUser (u.retime (u.header.time + span)) = tally.countUser u := by cases u <;> rfl
  simp only [delayed, stepUser, hheader, hdialect, hcount, hdrawn, hsightings, Header.retime,
    h.names, h.seen, h.tally]
  split
  · exact ⟨⟨rfl, h.load, rfl, rfl⟩, rfl, rfl⟩
  · exact ⟨⟨rfl, h.load, rfl, rfl⟩, rfl, rfl⟩

/-- Delayed records draw the same in a delayed state, so much later. -/
theorem stepRecord_delay (h : p.Delayed span later) (hb : p.load.Bounded cores period)
    {record : Record} (hfits : record.header.time + span + period ≤ Micros.limit) :
    let delayed := job.stepRecord later (record.delay span)
    (job.stepRecord p record).progress.Delayed span delayed.progress ∧
      delayed.drawn = (job.stepRecord p record).drawn.map (Drawn.delay span) ∧
      delayed.fault = (job.stepRecord p record).fault := by
  cases record with
  | switch s => exact stepSwitch_delay h hb hfits
  | user u => exact stepUser_delay h u

/-- Names have no time. -/
theorem names_delay (p : Progress) (span : Nat) :
    (userNames p).map (Event.delay span) = userNames p ∧
      (coreNames p).map (Event.delay span) = coreNames p ∧
      (scheduleNames p).map (Event.delay span) = scheduleNames p ∧
      (job.groupNames p).map (Event.delay span) = job.groupNames p := by
  simp only [userNames, coreNames, scheduleNames, groupNames, List.map_append, List.map_cons,
    List.map_map, List.map_nil]
  exact ⟨rfl, rfl, rfl, rfl⟩

theorem closing_delay (h : p.Delayed span later) :
    job.closing later = (job.closing p).map (Drawn.delayWith p.load span) := by
  obtain ⟨huser, hcore, hschedule, hgroup⟩ := job.names_delay p span
  have hcores : coreNames later = coreNames p := by
    simp only [coreNames, h.load, Load.delay_cores]
  have huserNames : userNames later = userNames p := by simp only [userNames, h.names]
  have hscheduleNames : scheduleNames later = scheduleNames p := by
    simp only [scheduleNames, h.names]
  have hgroupNames : job.groupNames later = job.groupNames p := by simp only [groupNames, h.seen]
  have hnaming (view : View) (events : List Event) :
      (Drawn.of (.naming view) events).map (Drawn.delayWith p.load span) =
        Drawn.of (.naming view) (events.map (Event.delay span)) :=
    Drawn.of_delayWith span p.load (by simp) events
  unfold closing
  rw [hcores, huserNames, hscheduleNames, hgroupNames, h.load, ← Drawn.of_reference_delayWith]
  simp only [List.map_append, apply_ite (List.map (Drawn.delayWith p.load span)), hnaming, huser,
    hcore, hschedule, hgroup, List.map_nil]

end

end Job

end TraceReport
