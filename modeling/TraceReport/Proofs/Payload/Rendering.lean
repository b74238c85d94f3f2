import TraceReport.Proofs.Payload.Scan
import TraceReport.Proofs.Table

namespace TraceReport.Payload

open Text (joinWith trim trimEnd Trimmed)

/-- What may stand for a key before an equals sign. -/
structure IsKey (key : Text) : Prop where
  ne_nil : key ≠ []
  trimmed : Trimmed key
  plain : ∀ c ∈ key, c ∉ Scan.marks
  noEquals : '=' ∉ key

instance (key : Text) : Decidable (IsKey key) :=
  decidable_of_iff
    (key ≠ [] ∧ Trimmed key ∧ (∀ c ∈ key, c ∉ Scan.marks) ∧ '=' ∉ key)
    ⟨fun ⟨h1, h2, h3, h4⟩ => ⟨h1, h2, h3, h4⟩, fun ⟨h1, h2, h3, h4⟩ => ⟨h1, h2, h3, h4⟩⟩

/-- A pair as it is written: its key, and everything after the equals sign. -/
structure Entry where
  key : Text
  rest : Text

namespace Entry

def text (e : Entry) : Text := e.key ++ ' ' :: '=' :: e.rest

/-- An entry with a key, no comma of which ends a field. -/
structure Valid (e : Entry) : Prop where
  key : IsKey e.key
  unbroken : Scan.start.Unbroken e.rest

/-- The pair that is read from an entry. -/
def pair (e : Entry) : Text × Text := (e.key, trim (trimEnd e.rest))

variable {e : Entry}

theorem trim_text (he : e.Valid) :
    trim e.text = e.key ++ ' ' :: '=' :: trimEnd e.rest := by
  have hhead : ∀ d ∈ (e.key ++ [' ']).head?, Text.isBlank d = false := by
    intro d hd
    obtain ⟨c, key, hkey⟩ := List.exists_cons_of_ne_nil he.key.ne_nil
    rw [hkey] at hd
    exact he.key.trimmed.1 d (hkey ▸ hd)
  have htrim := Text.trim_append_cons hhead (c := '=') (by decide) e.rest
  simpa [text] using htrim

theorem pair?_trim_text (he : e.Valid) : pair? (trim e.text) = some e.pair := by
  have hkey : '=' ∉ e.key ++ [' '] := by simp [he.key.noEquals]
  have hcut := Text.cut?_append hkey (trimEnd e.rest)
  have htrim : trim (e.key ++ [' ']) = e.key := by
    rw [Text.trim_append_blanks (by decide), Text.trim_of_trimmed he.key.trimmed]
  rw [trim_text he, pair?]
  simp only [List.append_assoc, List.singleton_append] at hcut
  rw [hcut]
  simp only [htrim, List.isEmpty_iff, he.key.ne_nil, if_false]
  rfl

theorem text_unbroken (he : e.Valid) : Scan.start.Unbroken e.text := by
  obtain ⟨hafter, hkey⟩ := Scan.after_of_not_mem (s := .start) rfl he.key.plain
  rw [text, Scan.unbroken_append, hafter]
  exact ⟨hkey, rfl, rfl, he.unbroken⟩

theorem after_text (he : e.Valid) : Scan.start.after e.text = Scan.start.after e.rest := by
  obtain ⟨hafter, hkey⟩ := Scan.after_of_not_mem (s := .start) rfl he.key.plain
  rw [text, Scan.after_append, hafter]
  rfl

end Entry

/-- Entries between commas. -/
def written (entries : List Entry) : Text := joinWith ", ".toList (entries.map Entry.text)

theorem written_cons (e : Entry) {entries : List Entry} (h : entries ≠ []) :
    written (e :: entries) = e.text ++ ',' :: ' ' :: written entries := by
  rw [written, List.map_cons, Text.joinWith_cons _ _ (by simpa using h), List.append_assoc]
  rfl

section

variable {before : List Entry} {last : Entry}

/-- The fields of what is written are its entries. -/
theorem trim_stretches_written (hvalid : ∀ e ∈ before ++ [last], e.Valid)
    (hclosed : ∀ e ∈ before, Scan.start.after e.rest = .start) :
    (stretches .start (written (before ++ [last]))).map trim =
      (before ++ [last]).map fun e => trim e.text := by
  induction before with
  | nil =>
    have hlast : last.Valid := hvalid last (by simp)
    have hone : written [last] = last.text := by simp [written]
    rw [List.nil_append, hone, stretches_of_unbroken (Entry.text_unbroken hlast)]
    rfl
  | cons e before ih =>
    have he : e.Valid := hvalid e (by simp)
    have hrest := ih (fun d hd => hvalid d (List.mem_cons_of_mem _ hd))
      fun d hd => hclosed d (List.mem_cons_of_mem _ hd)
    have hafter : Scan.start.after e.text = .start :=
      (Entry.after_text he).trans (hclosed e (by simp))
    rw [List.cons_append, written_cons e (by simp),
      stretches_append_comma (Entry.text_unbroken he) hafter, List.map_cons, List.map_cons]
    congr 1
    obtain ⟨w, ws, hparts⟩ := List.exists_cons_of_ne_nil
      (stretches_ne_nil .start (written (before ++ [last])))
    have hspace : stretches .start (' ' :: written (before ++ [last])) = (' ' :: w) :: ws := by
      rw [stretches_cons rfl]
      exact congrArg _ hparts
    rw [hspace, ← hrest, hparts, List.map_cons, List.map_cons, Text.trim_cons_blank (by decide)]

/-- The pairs of what is written are those of its entries. -/
theorem split_written (hvalid : ∀ e ∈ before ++ [last], e.Valid)
    (hclosed : ∀ e ∈ before, Scan.start.after e.rest = .start) :
    (split (written (before ++ [last]))).map (fun field => pair? field.text) =
      (before ++ [last]).map fun e => some e.pair := by
  have hkept : ((before ++ [last]).map fun e => trim e.text).filter (fun w => !w.isEmpty) =
      (before ++ [last]).map fun e => trim e.text := by
    refine List.filter_eq_self.mpr fun w hw => ?_
    obtain ⟨e, he, rfl⟩ := List.mem_map.mp hw
    simp [Entry.trim_text (hvalid e he)]
  have hcomp : (split (written (before ++ [last]))).map (fun field => pair? field.text) =
      (fieldTexts (written (before ++ [last]))).map pair? := by
    rw [fieldTexts, List.map_map]
    rfl
  rw [hcomp, fieldTexts_eq, trim_stretches_written hvalid hclosed, hkept, List.map_map]
  exact List.map_congr_left fun e he => Entry.pair?_trim_text (hvalid e he)

/-- Several entries are several fields. -/
theorem exists_split_written (hvalid : ∀ e ∈ before ++ [last], e.Valid)
    (hclosed : ∀ e ∈ before, Scan.start.after e.rest = .start) (hmany : before ≠ []) :
    ∃ first second fields, split (written (before ++ [last])) = first :: second :: fields := by
  have hlen := congrArg List.length (split_written hvalid hclosed)
  have hpos : 0 < before.length := List.length_pos_iff.mpr hmany
  simp only [List.length_map, List.length_append, List.length_singleton] at hlen
  match hs : split (written (before ++ [last])) with
  | [] => simp [hs] at hlen
  | [field] =>
    simp only [hs, List.length_singleton] at hlen
    omega
  | first :: second :: fields => exact ⟨first, second, fields, rfl⟩

end

/-- A text without the commas at its end and the blanks before them. -/
def withoutTail (t : Text) : Text := trimEnd (Text.dropEndWhile (· == ',') t)

section Braces

variable {t : Text}

theorem withoutTail_eq_self (hblank : ∀ c ∈ t.getLast?, Text.isBlank c = false)
    (hcomma : t.getLast? ≠ some ',') : withoutTail t = t := by
  have hcommas : Text.dropEndWhile (· == ',') t = t :=
    Text.dropEndWhile_of_getLast? fun c hc => beq_eq_false_iff_ne.mpr fun h => hcomma (h ▸ hc)
  rw [withoutTail, hcommas]
  exact Text.dropEndWhile_of_getLast? hblank

/-- Braces come off with the spaces inside them. -/
theorem unbraced_braces (ht : Trimmed t) :
    unbraced ('\x7b' :: ' ' :: t ++ [' ', '\x7d']) = t := by
  have hlast (front : Text) : ∀ c ∈ (front ++ [' ', '\x7d']).getLast?, c = '\x7d' := by
    intro c hc
    rw [List.getLast?_append] at hc
    exact (Option.some.inj hc).symm
  have hwhole : trim ('\x7b' :: ' ' :: t ++ [' ', '\x7d']) = '\x7b' :: ' ' :: t ++ [' ', '\x7d'] :=
    Text.trim_of_trimmed
      ⟨fun c hc => Option.some.inj hc ▸ rfl, fun c hc => hlast _ c hc ▸ rfl⟩
  have hopened :
      dropFront '\x7b' ('\x7b' :: ' ' :: t ++ [' ', '\x7d']) = ' ' :: t ++ [' ', '\x7d'] := by
    rw [List.cons_append, dropFront, if_pos rfl]
  have htrailing : withoutTail (' ' :: t ++ [' ', '\x7d']) = ' ' :: t ++ [' ', '\x7d'] :=
    withoutTail_eq_self (fun c hc => hlast _ c hc ▸ rfl)
      fun hcomma => absurd (hlast _ ',' hcomma) (by decide)
  rw [withoutTail] at htrailing
  have hclosed : dropBack '\x7d' (' ' :: t ++ [' ', '\x7d']) = ' ' :: (t ++ [' ']) := by
    have hsplit : ' ' :: t ++ [' ', '\x7d'] = ' ' :: (t ++ [' ']) ++ ['\x7d'] := by simp
    rw [dropBack, hsplit, if_pos List.getLast?_concat, List.dropLast_concat]
  rw [unbraced, hwhole, hopened, htrailing, hclosed, Text.trim_cons_blank (by decide),
    Text.trim_append_blanks (by decide), Text.trim_of_trimmed ht]

/-- From a text that does not begin with a brace, what comes off is at its end. -/
theorem unbraced_unopened (ht : Trimmed t) (hopen : t.head? ≠ some '\x7b') :
    unbraced t = trim (dropBack '\x7d' (withoutTail t)) := by
  have hopened : dropFront '\x7b' t = t := by
    cases t with
    | nil => rfl
    | cons c rest =>
      refine if_neg fun h => hopen ?_
      rw [h, List.head?_cons]
  rw [unbraced, Text.trim_of_trimmed ht, hopened, withoutTail]

/-- Without a brace or a comma at its ends a text keeps all but a brace at its end. -/
theorem unbraced_bare (ht : Trimmed t) (hopen : t.head? ≠ some '\x7b')
    (hcomma : t.getLast? ≠ some ',') :
    unbraced t = if t.getLast? = some '\x7d' then trim t.dropLast else t := by
  rw [unbraced_unopened ht hopen, withoutTail_eq_self ht.2 hcomma, dropBack]
  split
  · rfl
  · exact Text.trim_of_trimmed ht

end Braces

section

variable {before : List Entry} {last : Entry}

/-- What is written before the last equals sign. -/
def opening (before : List Entry) (last : Entry) : Text :=
  before.flatMap (fun e => e.text ++ ", ".toList) ++ last.key ++ [' ']

theorem written_concat (before : List Entry) (last : Entry) :
    written (before ++ [last]) = opening before last ++ '=' :: last.rest := by
  induction before with
  | nil => simp [written, opening, Entry.text]
  | cons e before ih =>
    rw [List.cons_append, written_cons e (by simp), ih]
    simp [opening]

/-- What is written begins with a key. -/
theorem head?_written (hkeys : ∀ e ∈ before ++ [last], IsKey e.key) :
    ∃ c, (written (before ++ [last])).head? = some c ∧ Text.isBlank c = false ∧ c ∉ Scan.marks := by
  obtain ⟨e, rest, hentries⟩ := List.exists_cons_of_ne_nil
    (List.append_ne_nil_of_right_ne_nil before (List.cons_ne_nil last []))
  have he : IsKey e.key := hkeys e (by simp [hentries])
  obtain ⟨c, key, hkey⟩ := List.exists_cons_of_ne_nil he.ne_nil
  refine ⟨c, ?_, he.trimmed.1 c (by simp [hkey]), he.plain c (by simp [hkey])⟩
  rw [hentries]
  cases rest with
  | nil => simp [written, Entry.text, hkey]
  | cons d rest => simp [written_cons e (List.cons_ne_nil d rest), Entry.text, hkey]

theorem getLast?_written (hne : last.rest ≠ []) :
    (written (before ++ [last])).getLast? = last.rest.getLast? := by
  rw [written_concat, List.getLast?_append, List.getLast?_cons, List.getLast?_eq_some_getLast hne]
  rfl

theorem trimmed_written (hkeys : ∀ e ∈ before ++ [last], IsKey e.key) (hne : last.rest ≠ [])
    (hend : ∀ c ∈ last.rest.getLast?, Text.isBlank c = false) :
    Trimmed (written (before ++ [last])) := by
  obtain ⟨c, hhead, hc, -⟩ := head?_written hkeys
  refine ⟨fun d hd => ?_, getLast?_written hne ▸ hend⟩
  rw [hhead] at hd
  exact Option.some.inj hd ▸ hc

/-- Without its own braces a payload loses at most a brace at its end. -/
theorem unbraced_written (hvalid : ∀ e ∈ before ++ [last], e.Valid)
    (hclosed : ∀ e ∈ before ++ [last], Scan.start.after e.rest = .start)
    (hne : last.rest ≠ []) (hend : ∀ c ∈ last.rest.getLast?, Text.isBlank c = false) :
    Trimmed (written (before ++ [last])) ∧
      ∃ rest, unbraced (written (before ++ [last])) = written (before ++ [⟨last.key, rest⟩]) ∧
        rest <+: last.rest ∧ (last.rest.getLast? ≠ some '\x7d' → rest = last.rest) := by
  have hlast : last.Valid := hvalid last (by simp)
  have hkeys : ∀ e ∈ before ++ [last], IsKey e.key := fun e he => (hvalid e he).key
  have hfinal : (written (before ++ [last])).getLast? = last.rest.getLast? := getLast?_written hne
  obtain ⟨c, hhead, hc, hmark⟩ := head?_written hkeys
  have htrimmed : Trimmed (written (before ++ [last])) := trimmed_written hkeys hne hend
  refine ⟨htrimmed, ?_⟩
  have hopen : (written (before ++ [last])).head? ≠ some '\x7b' := by
    rw [hhead]
    rintro ⟨⟩
    exact absurd hmark (by decide)
  have hcomma : (written (before ++ [last])).getLast? ≠ some ',' := by
    rw [hfinal]
    exact Scan.getLast?_ne_comma (hclosed last (by simp)) hlast.unbroken
  rw [unbraced_bare htrimmed hopen hcomma, hfinal]
  split
  case isFalse hbrace => exact ⟨last.rest, rfl, List.prefix_refl _, fun _ => rfl⟩
  case isTrue hbrace =>
    obtain ⟨inside, hinside⟩ := List.getLast?_eq_some_iff.mp hbrace
    refine ⟨trimEnd inside, ?_, ?_, fun h => absurd hbrace h⟩
    · have hdrop :
          (written (before ++ [last])).dropLast = opening before last ++ '=' :: inside := by
        rw [written_concat, hinside, ← List.cons_append, ← List.append_assoc, List.dropLast_concat]
      have hopening : ∀ d ∈ (opening before last).head?, Text.isBlank d = false := fun d hd => by
        rw [written_concat, List.head?_append, hd] at hhead
        exact Option.some.inj hhead ▸ hc
      rw [hdrop, Text.trim_append_cons hopening (by decide), written_concat]
      rfl
    · rw [hinside]
      exact (List.rdropWhile_prefix Text.isBlank inside).trans (List.prefix_append _ _)

/-- A payload in braces, as it is documented. -/
def braced (entries : List Entry) : Text := '\x7b' :: ' ' :: written entries ++ [' ', '\x7d']

/-- What is read of an entry, without quotes. -/
def Entry.read (e : Entry) : Text × Text := (e.key, Text.unquote e.pair.2)

/-- A pair as it is written with its value in quotes. -/
def Entry.quoted (pair : Text × Text) : Entry := ⟨pair.1, ' ' :: ('"' :: pair.2 ++ ['"'])⟩

theorem Entry.getLast?_quoted (pair : Text × Text) :
    (Entry.quoted pair).rest.getLast? = some '"' := by
  rw [Entry.quoted, ← List.cons_append, List.getLast?_concat]

/-- Quotes around a value are not read. -/
theorem Entry.read_quoted (pair : Text × Text) : (Entry.quoted pair).read = pair := by
  have hend : trimEnd (' ' :: ('"' :: pair.2 ++ ['"'])) = ' ' :: ('"' :: pair.2 ++ ['"']) := by
    apply Text.dropEndWhile_of_getLast?
    rw [← List.cons_append, List.getLast?_concat]
    decide
  have htrimmed : trim (' ' :: ('"' :: pair.2 ++ ['"'])) = '"' :: pair.2 ++ ['"'] := by
    rw [Text.trim_cons_blank (by decide)]
    exact Text.trim_of_trimmed (Text.trimmed_quoted pair.2)
  have hunquoted : Text.unquote ('"' :: pair.2 ++ ['"']) = pair.2 := by
    rw [List.cons_append, Text.unquote, if_pos List.getLast?_concat, List.dropLast_concat]
  rw [Entry.read, Entry.pair, Entry.quoted, hend, htrimmed, hunquoted]

theorem pairs_of_unbraced {t : Text} (h : unbraced t = written (before ++ [last]))
    (hvalid : ∀ e ∈ before ++ [last], e.Valid)
    (hclosed : ∀ e ∈ before, Scan.start.after e.rest = .start) :
    pairs t = Table.ofPairs ((before ++ [last]).map Entry.read) := by
  have hread := congrArg
    (List.filterMap (Option.map fun pair : Text × Text => (pair.1, Text.unquote pair.2)))
    (split_written hvalid hclosed)
  rw [List.filterMap_map, List.filterMap_map] at hread
  rw [pairs, h]
  refine congrArg Table.ofPairs (hread.trans ?_)
  rw [← List.filterMap_eq_map]
  rfl

/-- The pairs of a plain payload of several entries. At its end a brace may be lost. -/
theorem plain_braced (hvalid : ∀ e ∈ before ++ [last], e.Valid)
    (hclosed : ∀ e ∈ before ++ [last], Scan.start.after e.rest = .start)
    (hne : last.rest ≠ []) (hend : ∀ c ∈ last.rest.getLast?, Text.isBlank c = false)
    (hmany : before ≠ []) :
    ∃ rest, (last.rest.getLast? ≠ some '\x7d' → rest = last.rest) ∧
      plain (braced (before ++ [last])) =
        (Table.ofPairs (List.map Entry.read (before ++ [⟨last.key, rest⟩])), none) := by
  have hbefore : ∀ e ∈ before, Scan.start.after e.rest = .start := fun e he =>
    hclosed e (List.mem_append_left _ he)
  obtain ⟨htrimmed, rest, hbare, hprefix, hsame⟩ := unbraced_written hvalid hclosed hne hend
  have hinner := unbraced_braces htrimmed
  refine ⟨rest, hsame, ?_⟩
  have hlast : Entry.Valid ⟨last.key, rest⟩ :=
    ⟨(hvalid last (by simp)).key, (hvalid last (by simp)).unbroken.of_prefix hprefix⟩
  have hpairs := pairs_of_unbraced hbare
    (List.forall_mem_append.mpr ⟨fun e he => hvalid e (List.mem_append_left _ he), by simpa⟩)
    hbefore
  obtain ⟨first, second, fields, hfields⟩ := exists_split_written hvalid hbefore hmany
  rw [plain, braced, hinner, hfields, hpairs]

end

/-- The last entry of its key is found in a plain payload of several, unless it could lose a
brace. -/
theorem find?_plain_braced {before after : List Entry} {e : Entry}
    (hvalid : ∀ d ∈ before ++ e :: after, d.Valid)
    (hclosed : ∀ d ∈ before ++ e :: after, Scan.start.after d.rest = .start)
    (hends : ∀ d ∈ before ++ e :: after, ∃ c, d.rest.getLast? = some c ∧ Text.isBlank c = false)
    (hbrace : e.rest.getLast? ≠ some '\x7d') (hlater : ∀ d ∈ after, d.key ≠ e.key)
    (hmany : before ≠ [] ∨ after ≠ []) :
    (plain (braced (before ++ e :: after))).1.find? e.key = some e.read.2 := by
  have hend {d : Entry} (hd : d ∈ before ++ e :: after) :
      d.rest ≠ [] ∧ ∀ c ∈ d.rest.getLast?, Text.isBlank c = false := by
    obtain ⟨c, hc, hsolid⟩ := hends d hd
    refine ⟨?_, fun b hb => ?_⟩
    · intro hnil
      simp [hnil] at hc
    · rw [hc] at hb
      exact Option.some.inj hb ▸ hsolid
  rcases List.eq_nil_or_concat after with rfl | ⟨mid, last, rfl⟩
  · have he : e ∈ before ++ [e] := by simp
    obtain ⟨rest, hsame, hplain⟩ := plain_braced hvalid hclosed (hend he).1 (hend he).2
      (hmany.resolve_right fun h => h rfl)
    rw [hplain, hsame hbrace, List.map_append]
    exact Table.find?_ofPairs (by simp) _ _
  · have hsplit : before ++ e :: mid.concat last = (before ++ e :: mid) ++ [last] := by simp
    have hlast : last ∈ before ++ e :: mid.concat last := by simp
    obtain ⟨hne, hsolid⟩ := hend hlast
    rw [hsplit] at hvalid hclosed ⊢
    obtain ⟨rest, -, hplain⟩ := plain_braced hvalid hclosed hne hsolid (by simp)
    rw [hplain, List.append_assoc, List.map_append, List.cons_append, List.map_cons]
    refine Table.find?_ofPairs (fun pair hpair => ?_) _ _
    obtain ⟨d, hd, rfl⟩ := List.mem_map.mp hpair
    rcases List.mem_append.mp hd with hmid | hfinal
    · exact hlater d (by simp [hmid])
    · obtain rfl := List.mem_singleton.mp hfinal
      exact hlater last (by simp)

end TraceReport.Payload
