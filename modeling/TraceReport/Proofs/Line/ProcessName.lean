import TraceReport.Proofs.Line.QuotedValues

namespace TraceReport

namespace Header

/-- The process name is the last of the tokens that stand in the same place in every record. -/
def processIndex : Nat := headTokens - 1

def ofProcess (h : Header) (name : Text) : Header := { h with process := name }

/-- The process is read from its own token, and nothing else is. -/
theorem read_set (clock : Clock) {tokens : List Text} (token : Text)
    (enough : headTokens ≤ tokens.length)
    (enough' : headTokens ≤ (tokens.set processIndex token).length)
    (pidToken tidToken : Text) (payload : Payload) :
    read clock (tokens.set processIndex token) enough' pidToken tidToken payload =
      (read clock tokens enough pidToken tidToken payload).map fun h =>
        h.ofProcess (without ['"', ','] token) := by
  have : 13 ≤ tokens.length := enough
  have hindex : processIndex = 12 := rfl
  simp only [read, hindex, List.getElem_set_self, List.getElem_set_ne, ne_eq,
    not_false_eq_true, Nat.reduceEqDiff, OfNat.ofNat_ne_zero]
  cases clock.micros? tokens[0] with
  | none => rfl
  | some time =>
    cases core? (without [' '] tokens[7]) with
    | error fault => rfl
    | ok core =>
      cases integer? "process id" (without [',', ' '] pidToken) with
      | error fault => rfl
      | ok pid =>
        cases integer? "thread id" (without [',', ' '] tidToken) with
        | error fault => rfl
        | ok tid => rfl

end Header

namespace Record

/-- The record as another process would have written it. -/
def ofProcess (name : Text) : Record → Record
  | .switch s => .switch ⟨s.header.ofProcess name⟩
  | .user (.plain s) => .user (.plain { s with header := s.header.ofProcess name })
  | .user (.structured b) => .user (.structured ⟨b.header.ofProcess name⟩)

theorem header_ofProcess (name : Text) (record : Record) :
    (record.ofProcess name).header = record.header.ofProcess name := by
  cases record with
  | switch s => rfl
  | user u =>
    cases u with
    | plain s => rfl
    | structured b => rfl

/-- What becomes of a line does not depend on its process, and of a record nothing but its process
does. -/
theorem read_set (clock : Clock) (dialect : Dialect) (tokens : List Text) (token : Text) :
    read clock dialect (tokens.set Header.processIndex token) =
      (read clock dialect tokens).map (ofProcess (Header.without ['"', ','] token)) := by
  have hpid : Header.processIndex ≠ 15 := by decide
  have htid : Header.processIndex ≠ 18 := by decide
  have huser : (tokens.set Header.processIndex token).drop userMinimum = tokens.drop userMinimum :=
    List.drop_set_of_lt (by decide)
  have hswitch : (tokens.set Header.processIndex token).drop Switch.minimum =
      tokens.drop Switch.minimum := List.drop_set_of_lt (by decide)
  cases dialect with
  | kernel =>
    simp only [read, Switch.read, List.length_set]
    split
    case isTrue hlen =>
      have enough : Header.headTokens ≤ tokens.length := Nat.le_trans (by decide) hlen
      simp only [hswitch, List.getElem_set_ne hpid, Header.read_set clock token enough]
      generalize Header.read clock tokens enough _ _ _ = outcome
      cases outcome with
      | error fault => rfl
      | ok header =>
        simp only [Except.map, bind, Except.bind, Header.ofProcess, ofProcess, pure, Except.pure]
        split
        · rfl
        · rfl
    case isFalse => rfl
  | plain =>
    simp only [read, Signal.read, List.length_set]
    split
    case isTrue hlen =>
      have enough : Header.headTokens ≤ tokens.length := Nat.le_trans (by decide) hlen
      simp only [huser, List.getElem_set_ne hpid, List.getElem_set_ne htid,
        Header.read_set clock token enough]
      generalize Payload.plain _ = parts
      generalize Header.read clock tokens enough _ _ _ = outcome
      cases outcome with
      | error fault => rfl
      | ok header => rfl
    case isFalse => rfl
  | structured =>
    simp only [read, Block.read, List.length_set]
    split
    case isTrue hlen =>
      have enough : Header.headTokens ≤ tokens.length := Nat.le_trans (by decide) hlen
      simp only [huser, List.getElem_set_ne hpid, List.getElem_set_ne htid,
        Header.read_set clock token enough]
      generalize Payload.structured _ = payload
      generalize Header.read clock tokens enough _ _ _ = outcome
      cases outcome with
      | error fault => rfl
      | ok header => rfl
    case isFalse => rfl

/-- The process of a record is named by its token. -/
theorem process_of_read {clock : Clock} {dialect : Dialect} {tokens : List Text} {record : Record}
    (h : read clock dialect tokens = .ok record) {token : Text}
    (htoken : tokens[Header.processIndex]? = some token) :
    record.header.process = Header.without ['"', ','] token := by
  obtain ⟨hlt, rfl⟩ := List.getElem_of_getElem? htoken
  have hset := read_set clock dialect tokens tokens[Header.processIndex]
  rw [List.set_getElem_self, h] at hset
  have hsame := Except.ok.inj hset
  rw [hsame, header_ofProcess]
  rfl

end Record

/-- A line around the name of its process: before it stand twelve words and a quote, and after it a
quote, a comma and a space. -/
structure NamedLine where
  front : Text
  back : Text
  front_noTab : '\t' ∉ front
  front_words : (Text.words (Line.unpadded front)).length = Header.processIndex
  back_noTab : '\t' ∉ back.head?

namespace NamedLine

variable (l : NamedLine)

/-- The token of a name that is one word. -/
def token (name : Text) : Text := '"' :: name ++ "\",".toList

def naming (name : Text) : Text := l.front ++ ' ' :: (token name ++ ' ' :: l.back)

/-- The words before the name. -/
def words : List Text := Text.words (Line.unpadded l.front)

/-- The tokens after the name. -/
def later : List Text := Line.tokens (Text.dropEndWhile Line.isLineEnd l.back)

theorem token_isWord {name : Text} (h : Text.Solid name) : Text.IsWord (token name) := by
  refine ⟨List.cons_ne_nil _ _, ?_⟩
  rw [token, List.cons_append, Text.solid_cons, Text.solid_append]
  exact ⟨by decide, h, by decide⟩

theorem without_token {name : Text} (h : '"' ∉ name) :
    Header.without ['"', ','] (token name) = name.filter (· ≠ ',') := by
  have hname : Header.without ['"', ','] name = name.filter (· ≠ ',') := by
    refine List.filter_congr fun c hc => ?_
    have hquote : c ≠ '"' := fun heq => h (heq ▸ hc)
    simp [hquote]
  have hopening : Header.without ['"', ','] ('"' :: name) = Header.without ['"', ','] name := rfl
  have hclosing : Header.without ['"', ','] "\",".toList = [] := rfl
  rw [token, Header.without_append, hopening, hclosing, List.append_nil, hname]

theorem two_le_length_front : 2 ≤ l.front.length := by
  have hwords := l.front_words
  match hfront : l.front with
  | [] =>
    rw [hfront] at hwords
    exact absurd hwords (by decide)
  | [c] =>
    have hfew : (Text.words (Line.unpadded [c])).length ≤ 1 := by
      by_cases hc : Text.isBlank c <;> simp [Line.unpadded, Text.words, Text.splitWhen, hc]
    rw [← hfront, hwords] at hfew
    exact absurd hfew (by decide)
  | _ :: _ :: rest => simp

/-- Whatever the name is, the words before it are read by themselves. -/
theorem tokens_naming (name : Text) :
    Line.tokens (Line.body (l.naming name)) = l.words ++
      Line.tokens (token name ++ ' ' :: Text.dropEndWhile Line.isLineEnd l.back) := by
  have hbody : Line.body (l.naming name) = Line.unpadded l.front ++
      ' ' :: (token name ++ ' ' :: Text.dropEndWhile Line.isLineEnd l.back) := by
    rw [naming, Line.body_append_cons (by decide) l.two_le_length_front,
      Text.dropEndWhile_append_cons (by decide)]
  have hfront : '\t' ∉ Line.unpadded l.front := fun h =>
    l.front_noTab ((Line.unpadded_sublist l.front).subset h)
  have hquote : '\t' ∉
      (token name ++ ' ' :: Text.dropEndWhile Line.isLineEnd l.back).head? := by
    rw [token, List.cons_append, List.cons_append, List.head?_cons]
    decide
  rw [hbody, Line.tokens_append_space hfront hquote, words]

/-- A name of one word is one token, and those after it are the same for all names. -/
theorem tokens_naming_of_solid {name : Text} (h : Text.Solid name) :
    Line.tokens (Line.body (l.naming name)) = l.words ++ token name :: l.later := by
  have hword := token_isWord h
  have htab : '\t' ∉ token name := fun hmem =>
    absurd (hword.2 '\t' hmem) (by decide)
  have hback : '\t' ∉ (Text.dropEndWhile Line.isLineEnd l.back).head? := by
    intro hhead
    obtain ⟨dropped, hsplit, -⟩ := Text.exists_append_dropEndWhile Line.isLineEnd l.back
    refine l.back_noTab ?_
    rw [hsplit, List.head?_append, Option.mem_def.mp hhead]
    rfl
  rw [l.tokens_naming, Line.tokens_append_space htab hback, Text.words_of_isWord hword, later,
    List.singleton_append]

/-- The name of one word in place of another is one token in place of another. -/
theorem tokens_naming_set {app name : Text} (happ : Text.Solid app) (hname : Text.Solid name) :
    Line.tokens (Line.body (l.naming name)) =
      (Line.tokens (Line.body (l.naming app))).set Header.processIndex (token name) := by
  have hindex : ¬Header.processIndex < l.words.length := by
    rw [words, l.front_words]
    exact Nat.lt_irrefl _
  rw [l.tokens_naming_of_solid happ, l.tokens_naming_of_solid hname, List.set_append, if_neg hindex,
    words, l.front_words, Nat.sub_self, List.set_cons_zero]

/-- The name that is read from a line is one word. -/
theorem solid_of_read {clock : Clock} {dialect : Dialect} {app : Text} {record : Record}
    (h : Record.read clock dialect (Line.tokens (Line.body (l.naming app))) = .ok record) :
    Text.Solid record.header.process := by
  obtain ⟨w, ws, hw, hsolid⟩ := Line.exists_tokens_cons (c := '"') (by decide)
    (app ++ "\",".toList ++ ' ' :: Text.dropEndWhile Line.isLineEnd l.back)
  have htokens := l.tokens_naming app
  rw [token, List.cons_append, List.cons_append, hw] at htokens
  have hindex : l.words.length = Header.processIndex := l.front_words
  have htoken : (Line.tokens (Line.body (l.naming app)))[Header.processIndex]? = some w := by
    rw [htokens, ← hindex, List.getElem?_append_right (Nat.le_refl _), Nat.sub_self,
      List.getElem?_cons_zero]
  rw [Record.process_of_read h htoken]
  exact fun c hc => hsolid c (List.mem_of_mem_filter hc)

end NamedLine

section Headings

open Text (joinWith)

/-- The words of a heading before the name of its process. -/
def Heading.opening (h : Heading) (event : Text) : List Text :=
  [h.stamp, "(+".toList ++ h.elapsed ++ [')'], h.host, event ++ [':'], ['\x7b'], "cpu_id".toList,
    ['='], Numeral.decimal h.core, "\x7d,".toList, ['\x7b'], "procname".toList, ['=']]

/-- Every printed line names its process so. -/
theorem Heading.exists_naming (h : Heading) {event : Text} (hevent : Text.Solid event)
    {ids : List Text} (hids : ∀ w ∈ ids, Text.IsWord w) (hne : ids ≠ []) (payload : Text) :
    ∃ l : NamedLine, l.naming h.process = h.text event (joinWith [' '] ids) ++ payload := by
  have hwords : h.words event ids =
      h.opening event ++ NamedLine.token h.process :: (ids ++ ["\x7d,".toList]) := by
    simp [words, opening, NamedLine.token]
  have hopening : ∀ w ∈ h.opening event, Text.IsWord w := fun w hw =>
    h.words_isWord hevent hids w (hwords ▸ List.mem_append_left _ hw)
  have hnoTab : '\t' ∉ joinWith [' '] (h.opening event) := fun htab =>
    absurd (Text.eq_space_of_mem_joinWith hopening htab (by decide)) (by decide)
  have hunpadded : Line.unpadded (joinWith [' '] (h.opening event)) =
      joinWith [' '] (h.opening event) := by
    obtain ⟨c, rest, hseconds⟩ := List.exists_cons_of_ne_nil h.seconds_digits.ne_nil
    have hdigit : c ≠ ' ' := by
      rintro rfl
      exact absurd (h.seconds_digits.digit ' ' (by simp [hseconds])) (by decide)
    rw [opening, Text.joinWith_cons_cons, stamp, hseconds]
    simp [Line.unpadded, hdigit]
  have hback : '\t' ∉ (joinWith [' '] (ids ++ ["\x7d,".toList]) ++ ' ' :: payload).head? := by
    obtain ⟨id, more, rfl⟩ := List.exists_cons_of_ne_nil hne
    obtain ⟨hword, hsolid⟩ := hids id (by simp)
    obtain ⟨c, w, rfl⟩ := List.exists_cons_of_ne_nil hword
    rw [List.cons_append, Text.joinWith_cons _ _ (by simp)]
    rintro ⟨⟩
    exact absurd (hsolid '\t' List.mem_cons_self) (by decide)
  have htext : h.text event (joinWith [' '] ids) ++ payload =
      joinWith [' '] (h.opening event) ++ ' ' :: (NamedLine.token h.process ++
        ' ' :: (joinWith [' '] (ids ++ ["\x7d,".toList]) ++ ' ' :: payload)) := by
    rw [h.text_eq event hne, hwords, Text.joinWith_append ' ' (by simp [opening]) (by simp),
      Text.joinWith_cons _ _ (by simp)]
    simp
  have hcount : (Text.words (Line.unpadded (joinWith [' '] (h.opening event)))).length =
      Header.processIndex := by
    rw [hunpadded, Text.words_joinWith hopening]
    rfl
  exact ⟨⟨_, _, hnoTab, hcount, hback⟩, htext.symm⟩

theorem UserHeading.exists_naming (h : UserHeading) (payload : Text) :
    ∃ l : NamedLine, l.naming h.process = h.line payload := by
  rw [h.line_eq]
  exact h.toHeading.exists_naming h.provider_event_solid h.idWords_isWord (List.cons_ne_nil _ _)
    payload

end Headings

namespace Record

/-- A line is read alike whatever its process is called, as long as that is one word: all fields but
the process are the same, and no comma is in its name. -/
theorem fields_kept_under_name (clock : Clock) (dialect : Dialect) (l : NamedLine) {app name : Text}
    {record : Record}
    (hread : read clock dialect (Line.tokens (Line.body (l.naming app))) = .ok record)
    (happ : record.header.process = app) (hname : Text.Solid name) (hquote : '"' ∉ name) :
    let renamed := record.ofProcess (name.filter (· ≠ ','))
    read clock dialect (Line.tokens (Line.body (l.naming name))) = .ok renamed ∧
      renamed.header = { record.header with process := name.filter (· ≠ ',') } := by
  intro renamed
  have hsolid : Text.Solid app := happ ▸ l.solid_of_read hread
  refine ⟨?_, header_ofProcess _ record⟩
  rw [l.tokens_naming_set hsolid hname, read_set, hread, NamedLine.without_token hquote]
  rfl

/-- A name with commas and colons, in place of that in a printed line. -/
theorem fields_kept_under_name_punctuated :
    let printed := messageHeading.line (messagePayload "hi".toList)
    let name := "a,b::c".toList
    ∃ l : NamedLine, l.naming "AppMgr".toList = printed ∧ ∃ record,
      read ⟨none⟩ .plain (Line.tokens (Line.body printed)) = .ok record ∧
      record.header.process = "AppMgr".toList ∧ Text.Solid name ∧ '"' ∉ name ∧
      read ⟨none⟩ .plain (Line.tokens (Line.body (l.naming name))) =
        .ok (record.ofProcess "ab::c".toList) := by
  intro printed name
  have hok : ((read ⟨none⟩ .plain (Line.tokens (Line.body printed))).toOption.map fun record =>
      record.header.process) = some "AppMgr".toList := by decide +kernel
  obtain ⟨record, hread, happ⟩ := Option.map_eq_some_iff.mp hok
  have hread := toOption_eq_some_iff.mp hread
  obtain ⟨l, hl⟩ : ∃ l : NamedLine, l.naming "AppMgr".toList = printed :=
    messageHeading.exists_naming (messagePayload "hi".toList)
  have hname : Text.Solid name := by decide
  have hquote : '"' ∉ name := by decide
  refine ⟨l, hl, record, hread, happ, hname, hquote, ?_⟩
  rw [← hl] at hread
  exact (fields_kept_under_name ⟨none⟩ .plain l hread happ hname hquote).1

/-- What a line says besides the name of its process. -/
def otherFields (clock : Clock) (dialect : Dialect) (line : Text) :
    Option (Text × ProcessId × ThreadId × Payload) :=
  (read clock dialect (Line.tokens (Line.body line))).toOption.map fun record =>
    (record.header.cpu, record.header.pid, record.header.tid, record.header.payload)

/-- Another name leaves the other fields of a line as they are. -/
def KeepsFields (clock : Clock) (dialect : Dialect) (l : NamedLine) (app name : Text) : Prop :=
  name ≠ [] → (∀ c ∈ name, c ∉ ['"', '\t', '\n', '\r']) →
    otherFields clock dialect (l.naming name) = otherFields clock dialect (l.naming app)

instance (clock : Clock) (dialect : Dialect) (l : NamedLine) (app name : Text) :
    Decidable (KeepsFields clock dialect l app name) :=
  inferInstanceAs (Decidable (_ → _ → _))

/-- The line of a message. -/
def messageLine : NamedLine where
  front := "[10.000000200] (+0.1) webos pmtrace:message: \x7b cpu_id = 1 \x7d, \x7b procname =".toList
  back := "vpid = 100, vtid = 101 \x7d, \x7b text = \"hi\", level = 2 \x7d".toList
  front_noTab := by decide
  front_words := by decide
  back_noTab := by decide

example :
    messageLine.naming "AppMgr".toList = messageHeading.line (messagePayload "hi".toList) := by
  decide +kernel

/-- With a name of two words a line is no record any more, and a name can bring ids of its own. -/
theorem not_keepsFields :
    let named (name : Text) := Line.tokens (Line.body (messageLine.naming name))
    let forged := "A, vpid = 7, vtid = 8 \x7d,".toList
    ((read ⟨none⟩ .plain (named "AppMgr".toList)).toOption.map fun record =>
        (record.header.process, record.header.pid)) = some ("AppMgr".toList, 100) ∧
      ¬KeepsFields ⟨none⟩ .plain messageLine "AppMgr".toList "App Mgr".toList ∧
      (read ⟨none⟩ .plain (named "App Mgr".toList)).isOk = false ∧
      ¬KeepsFields ⟨none⟩ .plain messageLine "AppMgr".toList forged ∧
      ((read ⟨none⟩ .plain (named forged)).toOption.map fun record =>
        (record.header.process, record.header.pid)) = some (['A'], 7) := by
  decide +kernel

end Record
end TraceReport
