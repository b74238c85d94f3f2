import TraceReport.Proofs.Conversion.Switches
import TraceReport.Proofs.Conversion.Views
import TraceReport.Proofs.Payload.Structured
import TraceReport.Proofs.Record

namespace TraceReport

namespace Event

theorem textArguments_eq {pairs : List (Text × Text)} (h : Table.Ordered pairs) :
    textArguments pairs = pairs.map fun (key, value) => (key, Json.string value) := by
  have hordered : Table.Ordered (pairs.map fun (key, value) => (key, Json.string value)) :=
    List.Pairwise.map _ (fun _ _ hk => hk) h
  exact Table.ofPairs_eq_of_perm hordered (List.Perm.refl _)

theorem mem_textArguments {pairs : List (Text × Text)} (h : Table.Ordered pairs) {key text : Text} :
    (key, Json.string text) ∈ textArguments pairs ↔ (key, text) ∈ pairs := by
  simp [textArguments_eq h]

/-- A text is under a key of the arguments of an event, or of the snapshot among them. -/
def Carries (e : Event) (key text : Text) : Prop :=
  ∃ arguments, e.arguments = some arguments ∧
    ((key, Json.string text) ∈ arguments ∨
      ∃ snapshot, ("snapshot".toList, Json.object snapshot) ∈ arguments ∧
        (key, Json.string text) ∈ snapshot)

end Event

namespace Tracepoint

theorem structured_cases {name : Text} {t : Tracepoint} (h : find? .structured name = some t) :
    name = t.name.toList ∧ (t = .log ∨ t = .blockEntry ∨ t = .blockExit ∨ t = .marker) := by
  have hfound := List.find?_some h
  simp only [Bool.and_eq_true, beq_iff_eq] at hfound
  obtain ⟨hname, hdialect⟩ := hfound
  refine ⟨hname.symm, ?_⟩
  cases t with
  | log | blockEntry | blockExit | marker => simp
  | _ => simp [dialect] at hdialect

end Tracepoint

namespace Block

/-- What the events of a record are named after. -/
def label (b : Block) : Text :=
  if b.header.event = Tracepoint.log.name.toList then b.category else b.name

variable {b : Block} {f : Payload.Fields} {json : Text}

/-- Every pair but category and name is an argument. -/
theorem mem_arguments_iff (hb : b.header.payload = Payload.structured (f.text json))
    {key text : Text} :
    (key, Json.string text) ∈ Event.textArguments b.arguments ↔
      (key, text) ∈ b.header.payload ∧ key ≠ categoryKey ∧ key ≠ nameKey := by
  have hordered : Table.Ordered b.arguments := by
    unfold arguments
    rw [hb]
    exact (f.ordered json).filter _
  rw [Event.mem_textArguments hordered]
  simp [arguments]

/-- The events of the life of an object: one of them has arguments, and those are the whole
payload. -/
theorem arguments_of_mem_objectEvents {event : Event} (h : event ∈ b.objectEvents) :
    event.name = b.name ∧ (event.arguments ≠ none → event.arguments =
      some [("snapshot".toList, .object (Event.textArguments b.header.payload))]) := by
  simp only [objectEvents, List.mem_cons, List.not_mem_nil, or_false] at h
  obtain rfl | rfl | rfl | rfl := h
  · exact ⟨rfl, fun hsome => absurd rfl hsome⟩
  · exact ⟨rfl, fun _ => rfl⟩
  · exact ⟨rfl, fun hsome => absurd rfl hsome⟩
  · exact ⟨rfl, fun hsome => absurd rfl hsome⟩

theorem carries_of_mem_objectEvents (hb : b.header.payload = Payload.structured (f.text json))
    {event : Event} (h : event ∈ b.objectEvents) (hsome : event.arguments ≠ none)
    {key text : Text} (hmem : (key, text) ∈ b.header.payload) : event.Carries key text := by
  have hordered : Table.Ordered b.header.payload := hb ▸ f.ordered json
  have harguments := (arguments_of_mem_objectEvents h).2 hsome
  exact ⟨_, harguments, .inr ⟨_, List.mem_cons_self,
    (Event.mem_textArguments hordered).mpr hmem⟩⟩

/-- An event of a record that shows its arguments under its label. -/
structure Shows (b : Block) (event : Event) : Prop where
  name : event.name = b.label
  phase : event.phase ≠ .snapshot
  arguments : event.arguments = some (Event.textArguments b.arguments)

theorem Shows.carries (hb : b.header.payload = Payload.structured (f.text json)) {event : Event}
    (h : b.Shows event) {key text : Text} (hmem : (key, text) ∈ b.header.payload)
    (hother : key ≠ categoryKey ∧ key ≠ nameKey) : event.Carries key text :=
  ⟨_, h.arguments, .inl ((mem_arguments_iff hb).mpr ⟨hmem, hother⟩)⟩

section Tracepoints

variable {tracepoint : Tracepoint}
  (ht : Tracepoint.find? .structured b.header.event = some tracepoint)

include ht

theorem label_of_find? : b.label = if tracepoint = .log then b.category else b.name := by
  obtain ⟨hname, hcases⟩ := Tracepoint.structured_cases ht
  rw [label, hname]
  obtain rfl | rfl | rfl | rfl := hcases <;> rfl

/-- Logs and blocks are drawn as one event, and markers as an object. -/
theorem mem_userEvents {event : Event}
    (h : event ∈ (UserRecord.structured b).userEvents tracepoint) :
    b.Shows event ∨ b.label = b.name ∧
      (UserRecord.structured b).userEvents tracepoint = b.objectEvents := by
  have hlabel := label_of_find? ht
  obtain rfl | rfl | rfl | rfl := (Tracepoint.structured_cases ht).2
  · obtain rfl := List.mem_singleton.mp h
    exact .inl ⟨hlabel.symm, nofun, rfl⟩
  · obtain rfl := List.mem_singleton.mp h
    exact .inl ⟨hlabel.symm, nofun, rfl⟩
  · obtain rfl := List.mem_singleton.mp h
    exact .inl ⟨hlabel.symm, nofun, rfl⟩
  · exact .inr ⟨hlabel, rfl⟩

/-- On the lanes of groups only blocks are drawn, each as one event. -/
theorem shows_of_mem_groupEvents {groups : Groups} {event : Event}
    (h : event ∈ (UserRecord.structured b).groupEvents groups tracepoint) : b.Shows event := by
  have hlabel := label_of_find? ht
  obtain rfl | rfl | rfl | rfl := (Tracepoint.structured_cases ht).2
  · exact absurd h List.not_mem_nil
  · obtain ⟨lane, -, rfl⟩ := List.mem_map.mp h
    exact ⟨hlabel.symm, nofun, rfl⟩
  · obtain ⟨lane, -, rfl⟩ := List.mem_map.mp h
    exact ⟨hlabel.symm, nofun, rfl⟩
  · exact absurd h List.not_mem_nil

end Tracepoints

end Block

namespace Job

variable {job : Job} {p : Progress}

/-- A record that draws anything draws what its tracepoint is on the two views. -/
theorem drawn_of_mem {record : UserRecord} {d : Drawn} (h : d ∈ (job.stepUser p record).drawn) :
    ∃ tracepoint, Tracepoint.find? record.dialect record.header.event = some tracepoint ∧
      (job.stepUser p record).drawn =
        Drawn.of .user (if job.views.user then record.userEvents tracepoint else []) ++
          Drawn.of .group
            (if job.views.group then record.groupEvents job.groups tracepoint else []) := by
  rw [stepUser_drawn] at h ⊢
  split at h
  case isTrue hignored => exact absurd h List.not_mem_nil
  case isFalse hadmitted =>
    rw [if_neg hadmitted]
    unfold drawUser at h ⊢
    cases hdrawable : job.drawable? record with
    | none =>
      rw [hdrawable] at h
      exact absurd h List.not_mem_nil
    | some tracepoint =>
      refine ⟨tracepoint, ?_, rfl⟩
      unfold drawable? at hdrawable
      split at hdrawable
      · exact hdrawable
      · exact absurd hdrawable nofun

/-- A structured record is drawn as events that each show its arguments, or as the life of an
object. -/
theorem mem_drawn_block {b : Block} {d : Drawn}
    (h : d ∈ (job.stepUser p (.structured b)).drawn) :
    b.Shows d.event ∨ b.label = b.name ∧ d.event ∈ b.objectEvents ∧
      ∀ event ∈ b.objectEvents, ⟨.user, event⟩ ∈ (job.stepUser p (.structured b)).drawn := by
  obtain ⟨tracepoint, ht, hdrawn⟩ := drawn_of_mem h
  rw [hdrawn] at h ⊢
  rcases List.mem_append.mp h with huser | hgroup
  · obtain ⟨-, hevent⟩ := Drawn.mem_of.mp huser
    split_ifs at hevent with hview
    · obtain hshows | ⟨hlabel, hobject⟩ := Block.mem_userEvents ht hevent
      · exact .inl hshows
      · refine .inr ⟨hlabel, hobject ▸ hevent, fun event he => List.mem_append_left _ ?_⟩
        rw [if_pos hview, hobject]
        exact Drawn.mem_of.mpr ⟨rfl, he⟩
    · exact absurd hevent List.not_mem_nil
  · obtain ⟨-, hevent⟩ := Drawn.mem_of.mp hgroup
    split_ifs at hevent
    · exact .inl (Block.shows_of_mem_groupEvents ht hevent)
    · exact absurd hevent List.not_mem_nil

/-- A record is named by its own fields as far as no member of its JSON payload is called like them,
its events are named after it, and every member is carried by every event that has arguments: those
that are called like the fields only in the snapshot of an object. -/
theorem block_members_carried {clock : Clock} {tokens : List Text} {b : Block}
    (hread : Block.read clock tokens = .ok b) (f : Payload.Fields) {json : Text}
    (htext : Text.joinWith [' '] (tokens.drop userMinimum) = f.text json)
    {found : List (Text × Json)} (hjson : Json.IsDocument json (.object found))
    {category name : Text} (hcategory : (Block.categoryKey, category) ∈ f.pairs)
    (hname : (Block.nameKey, name) ∈ f.pairs) :
    Payload.Overlaid found Block.categoryKey category b.category ∧
    Payload.Overlaid found Block.nameKey name b.name ∧
    ∀ (job : Job) (p : Progress), let drawn := (job.stepUser p (.structured b)).drawn
      (drawn ≠ [] → ∃ d ∈ drawn, d.event.arguments ≠ none) ∧
      ∀ d ∈ drawn, d.event.name = b.label ∧
        (d.event.arguments ≠ none → ∀ key j text, (key, j) ∈ found → Payload.ToldAs j text →
          (key ≠ Block.categoryKey ∧ key ≠ Block.nameKey ∨ d.event.phase = .snapshot) →
          d.event.Carries key text) := by
  have hpayload : b.header.payload = Payload.structured (f.text json) :=
    (Block.payload_of_read hread).trans (congrArg Payload.structured htext)
  have hvalue {key field : Text} (hfield : (key, field) ∈ f.pairs) :
      Payload.Overlaid found key field (b.header.value key) := by
    obtain ⟨text, hfind, hoverlaid⟩ := f.find?_overlaid hjson hfield
    rw [Header.value, hpayload, hfind]
    exact hoverlaid
  have hmember {key text : Text} {j : Json} (hj : (key, j) ∈ found)
      (htold : Payload.ToldAs j text) : (key, text) ∈ b.header.payload := by
    rw [hpayload, f.mem_structured_iff hjson]
    exact .inl ⟨j, hj, htold⟩
  refine ⟨hvalue hcategory, hvalue hname, fun job p => ⟨fun hne => ?_, fun d hd => ?_⟩⟩
  · obtain ⟨d, hd⟩ := List.exists_mem_of_ne_nil _ hne
    obtain hshows | ⟨-, -, hobject⟩ := mem_drawn_block hd
    · exact ⟨d, hd, by simp [hshows.arguments]⟩
    · exact ⟨_, hobject _ (List.mem_cons_of_mem _ List.mem_cons_self), by simp⟩
  · obtain hshows | ⟨hlabel, hevent, -⟩ := mem_drawn_block hd
    · refine ⟨hshows.name, fun _ key j text hj htold hkey => ?_⟩
      exact hshows.carries hpayload (hmember hj htold) (hkey.resolve_right hshows.phase)
    · have hnamed : d.event.name = b.name := (Block.arguments_of_mem_objectEvents hevent).1
      refine ⟨hnamed.trans hlabel.symm, fun hsome key j text hj htold _ => ?_⟩
      exact Block.carries_of_mem_objectEvents hpayload hevent hsome (hmember hj htold)

/-- The fields of a sample. -/
def sampleFields : Payload.Fields := .named ['C'] ['N'] (by decide) (by decide)

/-- The line of a block with these fields and a payload. -/
def sampleLine (json : Text) : Text :=
  "[10.000100000] (+0.000001000) host pmtrace:block_entry: \x7b cpu_id = 0 \x7d, ".toList ++
    "\x7b procname = \"App\", vpid = 100, vtid = 101 \x7d, ".toList ++ sampleFields.text json

/-- A member called `name` renames the record and its event, which carries the other one. -/
theorem block_members_carried_renamed :
    let json := "\x7b\"n\":[1, 2],\"name\":\"M\"\x7d".toList
    let tokens := Line.tokens (Line.body (sampleLine json))
    ∃ b, Block.read ⟨none⟩ tokens = .ok b ∧ b.category = ['C'] ∧ b.name = ['M'] ∧
      ∃ d ∈ (allViewsJob.stepUser allViewsJob.start (.structured b)).drawn,
        d.event.name = ['M'] ∧ d.event.Carries ['n'] "[1,2]".toList := by
  intro json tokens
  let found : List (Text × Json) :=
    [(['n'], .array [.int 1, .int 2]), (Block.nameKey, .string ['M'])]
  have hjson : Json.IsDocument json (.object found) := by
    refine Json.read?_eq_some_iff.mp ?_
    dsimp only [json, found]
    cbv
  have htext : Text.joinWith [' '] (tokens.drop userMinimum) = sampleFields.text json := by
    decide +kernel
  have hok : ((Block.read ⟨none⟩ tokens).toOption.map fun b =>
      (b.label == b.name, (allViewsJob.stepUser allViewsJob.start (.structured b)).drawn.length)) =
        some (true, 1) := by decide +kernel
  obtain ⟨b, hread, hb⟩ := Option.map_eq_some_iff.mp hok
  have hread := toOption_eq_some_iff.mp hread
  obtain ⟨hlabel, hlength⟩ := Prod.mk.inj hb
  obtain ⟨hcategory, hname, hevents⟩ := block_members_carried hread sampleFields htext hjson
    List.mem_cons_self (List.mem_cons_of_mem _ List.mem_cons_self)
  have hcategory : b.category = ['C'] :=
    hcategory.eq_field (by simp [found, Block.categoryKey, Block.nameKey])
  have hname : b.name = ['M'] :=
    hname.eq_argumentText hjson.ordered (List.mem_cons_of_mem _ List.mem_cons_self)
  obtain ⟨hsome, hcarried⟩ := hevents allViewsJob allViewsJob.start
  obtain ⟨d, hd, harguments⟩ := hsome (List.ne_nil_of_length_pos (hlength ▸ Nat.one_pos))
  obtain ⟨hnamed, hcarries⟩ := hcarried d hd
  refine ⟨b, hread, hcategory, hname, d, hd, ?_, ?_⟩
  · rw [hnamed, eq_of_beq hlabel, hname]
  · have htold : Payload.ToldAs (.array [.int 1, .int 2]) "[1,2]".toList :=
      Payload.toldAs_iff.mpr (by cbv)
    exact hcarries harguments _ _ _ List.mem_cons_self htold (.inl (by decide))

/-- No member of a JSON payload renames its record, and the events of the record carry them all. -/
def KeepsNames (clock : Clock) (tokens : List Text) (f : Payload.Fields) (json : Text)
    (category name : Text) : Prop :=
  Text.joinWith [' '] (tokens.drop userMinimum) = f.text json →
    (Block.categoryKey, category) ∈ f.pairs → (Block.nameKey, name) ∈ f.pairs →
    ∀ found, Json.IsDocument json (.object found) →
    ∀ b, Block.read clock tokens = .ok b → b.category = category ∧ b.name = name ∧
      ∀ (job : Job) (p : Progress), ∀ d ∈ (job.stepUser p (.structured b)).drawn,
        d.event.arguments ≠ none → ∀ key j text, (key, j) ∈ found → Payload.ToldAs j text →
          d.event.Carries key text

/-- Members called `cat` and `name` rename a block, and its event does not show them. -/
theorem not_keepsNames :
    let json := "\x7b\"cat\":\"X\",\"name\":\"Y\"\x7d".toList
    let tokens := Line.tokens (Line.body (sampleLine json))
    ((Block.read ⟨none⟩ tokens).toOption.map fun b => (b.category, b.name,
        (allViewsJob.stepUser allViewsJob.start (.structured b)).drawn.map fun d =>
          d.event.arguments.map List.length)) = some (['X'], ['Y'], [some 0]) ∧
      ¬KeepsNames ⟨none⟩ tokens sampleFields json ['C'] ['N'] := by
  intro json tokens
  have hread : ((Block.read ⟨none⟩ tokens).toOption.map fun b => (b.category, b.name,
      (allViewsJob.stepUser allViewsJob.start (.structured b)).drawn.map fun d =>
        d.event.arguments.map List.length)) = some (['X'], ['Y'], [some 0]) := by decide +kernel
  have hjson : Json.IsDocument json (.object
      [(Block.categoryKey, .string ['X']), (Block.nameKey, .string ['Y'])]) := by
    refine Json.read?_eq_some_iff.mp ?_
    dsimp only [json]
    cbv
  have htext : Text.joinWith [' '] (tokens.drop userMinimum) = sampleFields.text json := by
    decide +kernel
  refine ⟨hread, fun hkeeps => ?_⟩
  obtain ⟨b, hb, hparts⟩ := Option.map_eq_some_iff.mp hread
  obtain ⟨hcategory, -⟩ := hkeeps htext List.mem_cons_self
    (List.mem_cons_of_mem _ List.mem_cons_self) _ hjson b (toOption_eq_some_iff.mp hb)
  have hrenamed : b.category = ['X'] := (Prod.mk.inj hparts).1
  exact absurd (hrenamed.symm.trans hcategory) (by decide)

end Job
end TraceReport
