import Mathlib
import TraceReport.Proofs.Json.Reading
import TraceReport.Proofs.Payload.RoundTrip
import TraceReport.Proofs.Text.Utf8
import TraceReport.Record

namespace TraceReport.Payload

section Places

variable (offset : Nat)

/-- A space before a field moves it by one byte. -/
theorem place_stretches_space (t : Text) :
    place offset (stretches .start (' ' :: t)) = place (offset + 1) (stretches .start t) := by
  obtain ⟨w, ws, ht⟩ := List.exists_cons_of_ne_nil (stretches_ne_nil .start t)
  have hspace : stretches .start (' ' :: t) = (' ' :: w) :: ws := by
    rw [stretches_cons rfl]
    exact congrArg (List.modifyHead (' ' :: ·)) ht
  have hbody : Text.trimStart (' ' :: w) = Text.trimStart w :=
    List.dropWhile_cons_of_pos (by decide)
  have hsize : Utf8.size (Text.trimStart w) ≤ Utf8.size w :=
    Utf8.size_le_of_sublist (List.dropWhile_sublist _)
  have hone : Utf8.size (' ' :: w) = 1 + Utf8.size w := rfl
  have hoffset : offset + (Utf8.size (' ' :: w) - Utf8.size (Text.trimStart w)) =
      offset + 1 + (Utf8.size w - Utf8.size (Text.trimStart w)) := by omega
  have hlater : offset + Utf8.size (' ' :: w) + 1 = offset + 1 + Utf8.size w + 1 := by omega
  rw [hspace, ht, place, place, hbody, hoffset, hlater]

/-- A stretch that begins with no blank is a field from there. -/
theorem place_cons {stretch : Text} (hne : stretch ≠ [])
    (hhead : ∀ c ∈ stretch.head?, Text.isBlank c = false) (later : List Text) :
    place offset (stretch :: later) =
      ⟨offset, Text.trim stretch⟩ :: place (offset + Utf8.size stretch + 1) later := by
  obtain ⟨c, w, rfl⟩ := List.exists_cons_of_ne_nil hne
  have hstart : Text.trimStart (c :: w) = c :: w := Text.trimStart_of_head? hhead
  have hend : Text.trimEnd (c :: w) = c :: Text.trimEnd w :=
    Text.trimEnd_append_cons (hhead c rfl) [] w
  rw [place, Text.trim, hstart, Nat.sub_self, Nat.add_zero, hend]
  rfl

end Places

section Collect

variable {e : Entry} (inner : Text) (done : Payload) (offset : Nat)

theorem head?_text (he : e.Valid) : ∀ c ∈ e.text.head?, Text.isBlank c = false := by
  obtain ⟨c, w, hkey⟩ := List.exists_cons_of_ne_nil he.key.ne_nil
  rw [Entry.text, hkey]
  exact fun d hd => he.key.trimmed.1 d (hkey ▸ hd)

/-- An entry that is closed is read by itself, and then what follows its comma. -/
theorem collect_entry (he : e.Valid) (hclosed : Scan.start.after e.rest = .start)
    (hkey : e.key ≠ payloadKey) (later : Text) :
    collect inner done (place offset (stretches .start (e.text ++ ',' :: ' ' :: later))) =
      collect inner (done.insert e.key (Text.unquote e.pair.2))
        (place (offset + Utf8.size e.text + 1 + 1) (stretches .start later)) := by
  have hafter : Scan.start.after e.text = .start := (Entry.after_text he).trans hclosed
  have hne : e.text ≠ [] := by simp [Entry.text]
  rw [stretches_append_comma (Entry.text_unbroken he) hafter, place_cons offset hne (head?_text he),
    place_stretches_space, collect, Entry.pair?_trim_text he]
  exact if_neg hkey

theorem pair?_payload (rest : Text) :
    pair? (payloadKey ++ [' ', '='] ++ rest) = some (payloadKey, Text.trim rest) := by
  have hcut : Text.cut? '=' (payloadKey ++ [' ', '='] ++ rest) = some (payloadKey ++ [' '], rest) :=
    Text.cut?_append (a := payloadKey ++ [' ']) (by decide) rest
  have htrim : Text.trim (payloadKey ++ [' ']) = payloadKey := by decide
  rw [pair?, hcut]
  simp only [htrim]
  exact if_neg (by decide)

/-- The value of the payload begins after its equals sign and reaches to the end of the text, with
whatever commas, quotes and brackets. -/
theorem collect_payload (front json : Text) :
    let last := (Entry.quoted (payloadKey, json)).text
    collect (front ++ last) done (place (Utf8.size front) (stretches .start last)) =
      done.insertAll (members json) := by
  intro last
  have hopening : Scan.start.Unbroken (payloadKey ++ [' ', '=']) ∧
      Scan.start.after (payloadKey ++ [' ', '=']) = .start := by decide
  have hlast : last = payloadKey ++ [' ', '='] ++ (Entry.quoted (payloadKey, json)).rest := by
    simp [last, Entry.text, Entry.quoted]
  obtain ⟨w, ws, hrest⟩ := List.exists_cons_of_ne_nil
    (stretches_ne_nil .start (Entry.quoted (payloadKey, json)).rest)
  have hstretches : stretches .start last = (payloadKey ++ [' ', '='] ++ w) :: ws := by
    rw [hlast, stretches_append hopening.1, hopening.2, hrest, List.modifyHead_cons]
  have htrim : Text.trim (payloadKey ++ [' ', '='] ++ w) =
      payloadKey ++ [' ', '='] ++ Text.trimEnd w :=
    Text.trim_append_cons (a := payloadKey ++ [' ']) (by decide) (by decide) w
  have hvalue : Text.unquote (Text.trim (Entry.quoted (payloadKey, json)).rest) = json := by
    have hread := congrArg Prod.snd (Entry.read_quoted (payloadKey, json))
    rwa [Entry.read, Entry.pair, Text.trim_trimEnd] at hread
  have hhead : ∀ c ∈ (payloadKey ++ [' ', '='] ++ w).head?, Text.isBlank c = false := by
    rintro c ⟨⟩
    decide
  rw [hstretches, place_cons _ (by simp) hhead, collect, htrim, pair?_payload]
  simp only [if_true, Utf8.dropBytes_size_append]
  rw [hlast, pair?_payload, Option.elim_some, hvalue]

/-- Quoted pairs are collected one after the other, up to the payload. -/
theorem collect_written {before : List (Text × Text)} (hkeys : ∀ pair ∈ before, IsKey pair.1)
    (hother : ∀ pair ∈ before, pair.1 ≠ payloadKey)
    (hvalues : ∀ pair ∈ before, Quotable false pair.2) (front json : Text) :
    let text := written ((before ++ [(payloadKey, json)]).map Entry.quoted)
    collect (front ++ text) done (place (Utf8.size front) (stretches .start text)) =
      (done.insertAll before).insertAll (members json) := by
  intro text
  induction before generalizing front done with
  | nil =>
    have hone : text = (Entry.quoted (payloadKey, json)).text := by simp [text, written]
    rw [hone]
    exact collect_payload done front json
  | cons pair before ih =>
    obtain ⟨hkey, hkeys⟩ := List.forall_mem_cons.mp hkeys
    obtain ⟨hne, hother⟩ := List.forall_mem_cons.mp hother
    obtain ⟨hvalue, hvalues⟩ := List.forall_mem_cons.mp hvalues
    let e := Entry.quoted pair
    let later := written ((before ++ [(payloadKey, json)]).map Entry.quoted)
    have htext : text = e.text ++ ',' :: ' ' :: later := written_cons e (by simp)
    have hinner : front ++ text = front ++ e.text ++ ", ".toList ++ later := by simp [htext]
    have hsize : Utf8.size front + Utf8.size e.text + 1 + 1 =
        Utf8.size (front ++ e.text ++ ", ".toList) := by
      rw [Utf8.size_append, Utf8.size_append]
      rfl
    have hread : Text.unquote e.pair.2 = pair.2 := congrArg Prod.snd (Entry.read_quoted pair)
    rw [hinner, htext, collect_entry _ done _ (Entry.quoted_valid hkey hvalue)
      (Entry.quoted_closed hvalue).1 hne, hread, hsize]
    exact ih _ hkeys hother hvalues _

end Collect

/-- Quoted pairs before a payload are read as they were written, and over them its members. -/
theorem structured_braced {before : List (Text × Text)} (hkeys : ∀ pair ∈ before, IsKey pair.1)
    (hother : ∀ pair ∈ before, pair.1 ≠ payloadKey)
    (hvalues : ∀ pair ∈ before, Quotable false pair.2) (json : Text) :
    structured (braced ((before ++ [(payloadKey, json)]).map Entry.quoted)) =
      (Table.ofPairs before).insertAll (members json) := by
  have hkeys' : ∀ e ∈ before.map Entry.quoted ++ [Entry.quoted (payloadKey, json)],
      IsKey e.key := by
    have hpayload : IsKey payloadKey := by decide
    refine List.forall_mem_append.mpr ⟨fun e he => ?_, fun e he => ?_⟩
    · obtain ⟨pair, hpair, rfl⟩ := List.mem_map.mp he
      exact hkeys pair hpair
    · obtain rfl := List.mem_singleton.mp he
      exact hpayload
  have hend : ∀ c ∈ (Entry.quoted (payloadKey, json)).rest.getLast?, Text.isBlank c = false := by
    rw [Entry.getLast?_quoted]
    decide
  have htrimmed := trimmed_written hkeys' (List.cons_ne_nil _ _) hend
  rw [← List.map_singleton, ← List.map_append] at htrimmed
  rw [structured, braced, unbraced_braces htrimmed]
  exact collect_written [] hkeys hother hvalues [] json

/-- What an argument says of a member of a JSON payload: strings as they are, integers in decimal,
other numbers as the text of a double, and all else as compact JSON. -/
inductive ToldAs : Json → Text → Prop
  | string (s : Text) : ToldAs (.string s) s
  | int (n : Int) : ToldAs (.int n) (Numeral.signed n)
  | real (x : Binary64) : ToldAs (.real x) (realText x)
  | null : ToldAs .null (Json.text .null)
  | bool (b : Bool) : ToldAs (.bool b) (Json.text (.bool b))
  | array (items : List Json) : ToldAs (.array items) (Json.text (.array items))
  | object (members : List (Text × Json)) : ToldAs (.object members) (Json.text (.object members))

theorem toldAs_iff {j : Json} {t : Text} : ToldAs j t ↔ argumentText j = t := by
  constructor
  · intro h
    cases h <;> rfl
  · rintro rfl
    cases j with
    | null => exact .null
    | bool b => exact .bool b
    | int n => exact .int n
    | real x => exact .real x
    | string s => exact .string s
    | array items => exact .array items
    | object members => exact .object members

section Members

variable {json key text : Text} {found : List (Text × Json)}

theorem members_of_isDocument (h : Json.IsDocument json (.object found)) :
    members json = found.map fun (key, value) => (key, argumentText value) := by
  rw [members, Json.read?_eq_some_iff.mpr h]

theorem mem_members (h : Json.IsDocument json (.object found)) :
    (key, text) ∈ members json ↔ ∃ j, (key, j) ∈ found ∧ ToldAs j text := by
  rw [members_of_isDocument h, List.mem_map]
  constructor
  · rintro ⟨⟨key, j⟩, hj, heq⟩
    obtain ⟨rfl, rfl⟩ := Prod.mk.inj heq
    exact ⟨j, hj, toldAs_iff.mpr rfl⟩
  · rintro ⟨j, hj, htold⟩
    exact ⟨(key, j), hj, congrArg (key, ·) (toldAs_iff.mp htold)⟩

theorem forall_not_mem_members (h : Json.IsDocument json (.object found)) :
    (∀ text, (key, text) ∉ members json) ↔ ∀ j, (key, j) ∉ found := by
  constructor
  · intro hnone j hj
    exact hnone _ ((mem_members h).mpr ⟨j, hj, toldAs_iff.mpr rfl⟩)
  · intro hnone text htext
    obtain ⟨j, hj, -⟩ := (mem_members h).mp htext
    exact hnone j hj

theorem nodup_members (h : Json.IsDocument json (.object found)) :
    ((members json).map Prod.fst).Nodup := by
  have hkeys : (members json).map Prod.fst = found.map Prod.fst := by
    rw [members_of_isDocument h, List.map_map]
    rfl
  rw [hkeys]
  exact h.ordered.nodup_keys

theorem members_eq_nil (h : ∀ found, ¬Json.IsDocument json (.object found)) :
    members json = [] := by
  unfold members
  split
  case h_1 found hread => exact absurd (Json.read?_eq_some_iff.mp hread) (h found)
  case h_2 => rfl

end Members

/-- What is told under the key of a field: the member that is called so, and else the field. -/
inductive Overlaid (found : List (Text × Json)) (key field : Text) : Text → Prop
  | member {j : Json} {text : Text} (hj : (key, j) ∈ found) (htext : ToldAs j text) :
      Overlaid found key field text
  | field (h : ∀ j, (key, j) ∉ found) : Overlaid found key field field

theorem Overlaid.eq_field {found : List (Text × Json)} {key field text : Text}
    (h : Overlaid found key field text) (hnone : ∀ j, (key, j) ∉ found) : text = field := by
  cases h with
  | member hj htext => exact absurd hj (hnone _)
  | field h => rfl

/-- A key has one member at most, and that is what is told. -/
theorem Overlaid.eq_argumentText {found : List (Text × Json)} (hordered : Table.Ordered found)
    {key field text : Text} (h : Overlaid found key field text) {j : Json}
    (hj : (key, j) ∈ found) : text = argumentText j := by
  cases h with
  | @member other text hother htext =>
    have hsame : some other = some j :=
      (Table.find?_eq_some_of_mem hordered hother).symm.trans
        (Table.find?_eq_some_of_mem hordered hj)
    obtain rfl := Option.some.inj hsame
    exact (toldAs_iff.mp htext).symm
  | field hnone => exact absurd hj (hnone j)

/-- The quoted fields before a payload, each under a key of its own. -/
structure Fields where
  pairs : List (Text × Text)
  isKey : ∀ pair ∈ pairs, IsKey pair.1 ∧ pair.1 ≠ payloadKey
  distinct : (pairs.map Prod.fst).Nodup
  plain : ∀ pair ∈ pairs, '"' ∉ pair.2 ∧ '\\' ∉ pair.2

namespace Fields

/-- A category and a name. -/
def named (category name : Text) (hcategory : '"' ∉ category ∧ '\\' ∉ category)
    (hname : '"' ∉ name ∧ '\\' ∉ name) : Fields where
  pairs := [(Block.categoryKey, category), (Block.nameKey, name)]
  isKey := by
    simp only [List.forall_mem_cons]
    exact ⟨by decide, by decide, by simp⟩
  distinct := by
    change [Block.categoryKey, Block.nameKey].Nodup
    decide
  plain := by
    simp only [List.forall_mem_cons]
    exact ⟨hcategory, hname, by simp⟩

variable (f : Fields) {json : Text} {found : List (Text × Json)}

/-- The text of a structured payload. -/
def text (json : Text) : Text := braced ((f.pairs ++ [(payloadKey, json)]).map Entry.quoted)

theorem structured_text (json : Text) :
    structured (f.text json) = (Table.ofPairs f.pairs).insertAll (members json) :=
  structured_braced (fun pair h => (f.isKey pair h).1) (fun pair h => (f.isKey pair h).2)
    (fun pair h => quotable_of_not_mem (f.plain pair h).1 (f.plain pair h).2) json

theorem ordered_pairs : Table.Ordered (Table.ofPairs f.pairs) :=
  Table.ordered_insertAll List.Pairwise.nil _

theorem ordered (json : Text) : Table.Ordered (structured (f.text json)) := by
  rw [structured_text]
  exact Table.ordered_insertAll f.ordered_pairs _

/-- What is read under a key: the member of the JSON object, and the field where there is none. -/
theorem mem_structured_iff (h : Json.IsDocument json (.object found)) {key text : Text} :
    (key, text) ∈ structured (f.text json) ↔
      (∃ j, (key, j) ∈ found ∧ ToldAs j text) ∨
        (∀ j, (key, j) ∉ found) ∧ (key, text) ∈ f.pairs := by
  have hpairs : (key, text) ∈ Table.ofPairs f.pairs ↔ (key, text) ∈ f.pairs := by
    rw [Table.ofPairs, Table.mem_insertAll_iff List.Pairwise.nil f.distinct]
    simp
  rw [structured_text, Table.mem_insertAll_iff f.ordered_pairs (nodup_members h), mem_members h,
    forall_not_mem_members h, hpairs]

/-- The look-up of a field. -/
theorem find?_overlaid (h : Json.IsDocument json (.object found)) {key field : Text}
    (hfield : (key, field) ∈ f.pairs) :
    ∃ text, (structured (f.text json)).find? key = some text ∧
      Overlaid found key field text := by
  by_cases hmember : ∃ j, (key, j) ∈ found
  · obtain ⟨j, hj⟩ := hmember
    have htold : ToldAs j (argumentText j) := toldAs_iff.mpr rfl
    have hmem := (f.mem_structured_iff h).mpr (.inl ⟨j, hj, htold⟩)
    exact ⟨_, Table.find?_eq_some_of_mem (f.ordered json) hmem, .member hj htold⟩
  · have hnone : ∀ j, (key, j) ∉ found := not_exists.mp hmember
    have hmem := (f.mem_structured_iff h).mpr (.inr ⟨hnone, hfield⟩)
    exact ⟨_, Table.find?_eq_some_of_mem (f.ordered json) hmem, .field hnone⟩

end Fields

/-- What a structured payload is read as: where its JSON is an object, each member with its text,
and over the category and the name those that are called so; and else the two alone. -/
theorem structured_decoded {category name : Text} (hcategory : '"' ∉ category ∧ '\\' ∉ category)
    (hname : '"' ∉ name ∧ '\\' ∉ name) (json : Text) :
    let fields := [(Block.categoryKey, category), (Block.nameKey, name)]
    let decoded := structured (braced ((fields ++ [(payloadKey, json)]).map Entry.quoted))
    (∀ found, Json.IsDocument json (.object found) →
      decoded.Ordered ∧ ∀ key text, (key, text) ∈ decoded ↔
        (∃ j, (key, j) ∈ found ∧ ToldAs j text) ∨
          (∀ j, (key, j) ∉ found) ∧ (key, text) ∈ fields) ∧
    ((∀ found, ¬Json.IsDocument json (.object found)) → decoded = fields) := by
  intro fields decoded
  let f := Fields.named category name hcategory hname
  refine ⟨fun found h => ⟨f.ordered json, fun key text => f.mem_structured_iff h⟩, fun h => ?_⟩
  have hread : decoded = (Table.ofPairs fields).insertAll (members json) := f.structured_text json
  rw [hread, members_eq_nil h]
  rfl

/-- A member called `cat` stands in the place of the category, and text that is no JSON brings
nothing. -/
theorem structured_decoded_members :
    let fields := [(Block.categoryKey, "C".toList), (Block.nameKey, "N".toList)]
    let decoded (json : Text) :=
      structured (braced ((fields ++ [(payloadKey, json)]).map Entry.quoted))
    let json := "\x7b\"cat\":null,\"n\":-12,\"l\":[true,\x7b\x7d],\"s\":\"\\u00e9,\x7d\"\x7d".toList
    (decoded json).Ordered ∧
      ("cat".toList, "null".toList) ∈ decoded json ∧
      ("l".toList, "[true,\x7b\x7d]".toList) ∈ decoded json ∧
      ("n".toList, "-12".toList) ∈ decoded json ∧
      ("s".toList, "é,\x7d".toList) ∈ decoded json ∧
      ("name".toList, "N".toList) ∈ decoded json ∧
      decoded "[1,]".toList = fields := by
  intro fields decoded json
  let found : List (Text × Json) :=
    [("cat".toList, .null), ("l".toList, .array [.bool true, .object []]),
      ("n".toList, .int (-12)), ("s".toList, .string "é,\x7d".toList)]
  have hjson : Json.IsDocument json (.object found) := by
    have hread : Json.read? json = some (.object found) := by
      dsimp only [json, found]
      cbv
    exact Json.read?_eq_some_iff.mp hread
  have hnone : ∀ found, ¬Json.IsDocument "[1,]".toList (.object found) := by
    intro found h
    have hread : Json.read? "[1,]".toList = none := by cbv
    exact absurd (hread.symm.trans (Json.read?_eq_some_iff.mpr h)) (Option.some_ne_none _).symm
  have hC : '"' ∉ "C".toList ∧ '\\' ∉ "C".toList := by decide
  have hN : '"' ∉ "N".toList ∧ '\\' ∉ "N".toList := by decide
  obtain ⟨hordered, hmem⟩ := (structured_decoded hC hN json).1 found hjson
  have hmembers : ∀ member ∈ found, (member.1, argumentText member.2) ∈ decoded json :=
    fun member h => (hmem _ _).mpr (.inl ⟨member.2, h, toldAs_iff.mpr rfl⟩)
  simp only [found, List.forall_mem_cons] at hmembers
  obtain ⟨hcat, hlist, hnumber, hstring, -⟩ := hmembers
  have hname : ("name".toList, "N".toList) ∈ decoded json :=
    (hmem _ _).mpr (.inr ⟨by simp [found], by simp [Block.nameKey]⟩)
  have hother : decoded "[1,]".toList = fields := (structured_decoded hC hN "[1,]".toList).2 hnone
  exact ⟨hordered, hcat, hlist, hnumber, hstring, hname, hother⟩

end TraceReport.Payload
