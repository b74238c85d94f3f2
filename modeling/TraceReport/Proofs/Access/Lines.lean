import Mathlib.Algebra.Order.BigOperators.Group.List
import TraceReport.Proofs.Access.Payloads
import TraceReport.Proofs.Line.Stamps
import TraceReport.Proofs.Line.Tokens

namespace TraceReport

section Spread

/-- How many bytes texts take with one byte behind each. -/
def spread (ws : List Text) : Nat := (ws.map fun w => Utf8.size w + 1).sum

theorem spread_cons (w : Text) (ws : List Text) : spread (w :: ws) = Utf8.size w + 1 + spread ws :=
  List.sum_cons

theorem spread_append (vs ws : List Text) : spread (vs ++ ws) = spread vs + spread ws := by
  rw [spread, List.map_append, List.sum_append]
  rfl

theorem spread_le_of_sublist {vs ws : List Text} (h : vs.Sublist ws) : spread vs ≤ spread ws :=
  List.Sublist.sum_le_sum (h.map _) fun _ _ => Nat.zero_le _

/-- What stands between separators and a byte behind it are no more than the text and one byte. -/
theorem spread_splitOnP_le (p : Char → Bool) (t : Text) :
    spread (t.splitOnP p) ≤ Utf8.size t + 1 := by
  induction t with
  | nil => simp [spread]
  | cons c t ih =>
    have hpos : 0 < c.utf8Size := Char.utf8Size_pos c
    rw [List.splitOnP_cons_eq_if_modifyHead, Utf8.size_cons]
    split
    case isTrue =>
      rw [spread_cons, Utf8.size_nil]
      omega
    case isFalse =>
      obtain ⟨w, ws, hparts⟩ := List.exists_cons_of_ne_nil (List.splitOnP_ne_nil p t)
      rw [hparts, spread_cons] at ih
      rw [hparts, List.modifyHead_cons, spread_cons, Utf8.size_cons]
      omega

theorem spread_tokens_le (line : Text) : spread (Line.tokens line) ≤ Utf8.size line + 1 := by
  have hchunks : spread (Line.chunks line) ≤ Utf8.size line + 1 :=
    (spread_le_of_sublist List.filter_sublist).trans (spread_splitOnP_le _ line)
  rw [Line.tokens_eq]
  cases hparts : Line.chunks line with
  | nil => exact Nat.zero_le _
  | cons first rest =>
    have hwords : spread (Text.words first) ≤ Utf8.size first + 1 := by
      rw [Text.words_eq]
      exact (spread_le_of_sublist List.filter_sublist).trans (spread_splitOnP_le _ first)
    rw [hparts, spread_cons] at hchunks
    dsimp only
    rw [spread_append]
    omega

/-- Texts with one space between them take a byte less. -/
theorem size_joinWith_le (ws : List Text) :
    Utf8.size (Text.joinWith [' '] ws) ≤ spread ws - 1 := by
  induction ws with
  | nil => simp [Text.joinWith]
  | cons w ws ih =>
    cases ws with
    | nil =>
      rw [Text.joinWith_singleton, spread_cons]
      omega
    | cons v vs =>
      have hspace : ' '.utf8Size = 1 := rfl
      rw [spread_cons] at ih
      rw [Text.joinWith_cons_cons, Utf8.size_append, Utf8.size_cons, spread_cons, spread_cons]
      omega

end Spread

namespace Guarded

section Body

/-- Looks at the second byte of a line, whatever stands there. -/
def body (raw : Text) : Guarded Text :=
  let line := Text.dropEndWhile Line.isLineEnd raw
  if (Utf8.encode line)[1]? = some 0x20 then do
    let first ← slice line 0 1
    let rest ← slice line 2 (Utf8.size line)
    return first ++ rest
  else return line

theorem safe_body (raw : Text) : (body raw).Safe (Line.body raw) := by
  rw [Line.body_eq, body]
  generalize Text.dropEndWhile Line.isLineEnd raw = line
  split
  case isTrue hpad =>
    obtain ⟨c, rest, rfl, hc⟩ := Utf8.getElem?_one_encode.mp hpad
    have hone : c.utf8Size = 1 := Utf8.utf8Size_eq_one hc
    have hsize : Utf8.size [c] = 1 := hone
    have hsize' : Utf8.size [c, ' '] = 2 := by
      rw [Utf8.size_cons, hone]
      rfl
    rw [Line.unpadded, if_pos hc]
    exact (safe_slice (a := []) (w := [c]) rfl rfl hsize).bind
      ((safe_slice (a := [c, ' ']) (List.append_nil _).symm hsize' rfl).bind (safe_pure _))
  case isFalse hplain =>
    have hkept : Line.unpadded line = line := by
      unfold Line.unpadded
      split
      case h_1 c rest =>
        exact if_neg fun hc => hplain (Utf8.getElem?_one_encode.mpr ⟨c, rest, rfl, hc⟩)
      case h_2 => rfl
    rw [hkept]
    exact safe_pure line

end Body

section Stamps

def fractionMicros (fraction : Text) : Guarded Nat := do
  let kept ← slice fraction 0 (min (Utf8.size fraction) Clock.fractionDigits)
  let value := (Numeral.natural? Numeral.maxWord64 kept).getD 0
  let missing ← difference Clock.fractionDigits (Utf8.size kept)
  let places := if missing ≤ Numeral.maxWord32 then missing else 0
  let power ← number Numeral.maxWord64 (10 ^ places)
  number Numeral.maxWord64 (value * power)

def wholeSeconds (clock : Clock) (seconds : Nat) : Guarded Nat :=
  match clock.boot with
  | some boot =>
    if boot ≤ seconds then difference seconds boot else return seconds % Clock.perSecond
  | none => return seconds % Clock.perSecond

/-- A product and a sum that are too large are noticed, and the stamp has no time. -/
def micros? (clock : Clock) (stamp : Text) : Guarded (Option Micros) :=
  match Clock.parts? stamp with
  | none => return none
  | some (seconds, fraction) => do
    let micros ← fractionMicros fraction
    let whole ← wholeSeconds clock seconds
    let product := whole * Clock.perSecond
    return if product ≤ Micros.limit then
        if product + micros ≤ Micros.limit then some (product + micros) else none
      else none

variable (clock : Clock)

/-- The digits that are kept are a number for themselves. -/
theorem natural?_take (s : Stamp) :
    Numeral.natural? Numeral.maxWord64 (s.fraction.take Clock.fractionDigits) =
      some (Nat.ofDigitChars 10 (s.fraction.take Clock.fractionDigits) 0) := by
  have hdigits : Json.Digits (s.fraction.take Clock.fractionDigits) :=
    ⟨by simpa [Clock.fractionDigits] using s.fraction_digits.ne_nil,
      fun c hc => s.fraction_digits.digit c (List.mem_of_mem_take hc)⟩
  have hfits : Nat.ofDigitChars 10 (s.fraction.take Clock.fractionDigits) 0 ≤
      Clock.fractionMicros s.fraction := Nat.le_mul_of_pos_right _ (Nat.pow_pos (by decide))
  have hmicros : Clock.fractionMicros s.fraction < Clock.perSecond :=
    Clock.fractionMicros_lt s.fraction_all
  have hmillion : Clock.perSecond ≤ Numeral.maxWord64 := by decide
  rw [Numeral.natural?_eq_some_iff]
  exact Numeral.natural_digits hdigits (by omega)

theorem safe_fractionMicros {stamp fraction : Text} {seconds : Nat}
    (h : Clock.parts? stamp = some (seconds, fraction)) :
    (fractionMicros fraction).Safe (Clock.fractionMicros fraction) := by
  obtain ⟨s, -, -, rfl, -⟩ := Clock.parts?_eq_some_iff.mp h
  have hfit := Clock.stepsFit_of_parts? ⟨none⟩ h
  let kept := s.fraction.take Clock.fractionDigits
  have hvalue : (Numeral.natural? Numeral.maxWord64 kept).getD 0 = Nat.ofDigitChars 10 kept 0 := by
    rw [natural?_take, Option.getD_some]
  have hlen : kept.length ≤ Clock.fractionDigits := List.length_take_le _ _
  have hsize : Utf8.size kept = kept.length := hfit.filled
  have hplaces : (if Clock.fractionDigits - kept.length ≤ Numeral.maxWord32 then
      Clock.fractionDigits - kept.length else 0) = Clock.fractionDigits - kept.length :=
    if_pos ((Nat.sub_le _ _).trans (by decide))
  have hmillion : 10 ^ Clock.fractionDigits ≤ Numeral.maxWord64 := by decide
  have hpower : 10 ^ (Clock.fractionDigits - kept.length) ≤ Numeral.maxWord64 :=
    (Nat.pow_le_pow_right (by decide) (Nat.sub_le _ _)).trans hmillion
  have hmicros : Nat.ofDigitChars 10 kept 0 * 10 ^ (Clock.fractionDigits - kept.length) =
      Clock.fractionMicros s.fraction := rfl
  refine (safe_slice (a := []) (w := kept) (List.take_append_drop _ _).symm rfl hfit.cut).bind ?_
  rw [hvalue, hsize]
  refine (safe_difference hlen).bind ?_
  dsimp only
  rw [hplaces]
  refine (safe_number hpower).bind ?_
  rw [hmicros]
  exact safe_number (hfit.micros_lt.le.trans hmillion)

theorem safe_wholeSeconds (seconds : Nat) :
    (wholeSeconds clock seconds).Safe (clock.wholeSeconds seconds) := by
  unfold wholeSeconds Clock.wholeSeconds
  cases clock.boot with
  | none => exact safe_pure _
  | some boot =>
    dsimp only
    split
    case isTrue hle => exact safe_difference hle
    case isFalse => exact safe_pure _

theorem safe_micros? (stamp : Text) : (micros? clock stamp).Safe (clock.micros? stamp) := by
  unfold micros? Clock.micros?
  cases hparts : Clock.parts? stamp with
  | none => exact safe_pure none
  | some parts =>
    obtain ⟨seconds, fraction⟩ := parts
    have hchecked (product micros : Nat) :
        (if product ≤ Micros.limit then
            if product + micros ≤ Micros.limit then some (product + micros) else none
          else none) =
          if product + micros ≤ Micros.limit then some (product + micros) else none := by
      split
      · rfl
      · exact (if_neg (by omega)).symm
    dsimp only
    rw [← hchecked]
    exact (safe_fractionMicros hparts).bind ((safe_wholeSeconds clock seconds).bind (safe_pure _))

end Stamps

section Records

variable (limit : Nat) (clock : Clock) (tokens : List Text)

/-- Reads the fixed fields, the ids at the given places; there is no payload yet. -/
def header (pidIndex tidIndex : Nat) : ExceptT LineFault Guarded Header := do
  let stamp ← token tokens 0
  let time ← match ← micros? clock stamp with
    | some time => pure time
    | none => throw (.badTimestamp stamp)
  let names := Line.colonParts (← token tokens Line.providerIndex)
  let cpu := Header.without [' '] (← token tokens 7)
  let core ← Header.core? cpu
  let pid ← Header.integer? "process id" (Header.without [',', ' '] (← token tokens pidIndex))
  let tid ← Header.integer? "thread id" (Header.without [',', ' '] (← token tokens tidIndex))
  let host ← token tokens 2
  let process ← token tokens 12
  return {
    stamp, time, cpu, core, pid, tid
    payload := []
    host := host.takeWhile (· != ':')
    provider := (names[0]?).getD []
    event := (names[1]?).getD []
    process := Header.without ['"', ','] process }

def checkLength (dialect : Dialect) : Except LineFault Unit :=
  if tokens.length < dialect.minimum then
    .error (.tooFewTokens dialect tokens.length dialect.minimum)
  else .ok ()

/-- What stands after the fixed fields. -/
def payloadText (dialect : Dialect) : Text := Text.joinWith [' '] (tokens.drop dialect.minimum)

/-- An event without a name is called as its provider. -/
def named (header : Header) : Header :=
  if header.event.isEmpty then { header with event := header.provider } else header

/-- Nothing is read before the tokens are counted, and no payload before the fixed fields. -/
def record (dialect : Dialect) : ExceptT LineFault Guarded Record := do
  checkLength tokens dialect
  let text := payloadText tokens dialect
  match dialect with
  | .kernel =>
    let header ← header clock tokens 15 15
    let payload ← pairs limit text
    return .switch ⟨{ named header with payload }⟩
  | .plain =>
    let header ← header clock tokens 15 18
    let (payload, scope) ← plain limit text
    let signal := scope.getD (if Signal.selfNamed.contains header.event then header.event else [])
    return .user (.plain ⟨{ header with payload }, signal⟩)
  | .structured =>
    let header ← header clock tokens 15 18
    let payload ← structured limit text
    return .user (.structured ⟨{ header with payload }⟩)

variable {limit tokens}

theorem safe_header {pidIndex tidIndex : Nat} (enough : Header.headTokens ≤ tokens.length)
    (hpid : pidIndex < tokens.length) (htid : tidIndex < tokens.length) :
    (header clock tokens pidIndex tidIndex).run.Safe
      (Header.read clock tokens enough tokens[pidIndex] tokens[tidIndex] []) := by
  have hlen : 13 ≤ tokens.length := enough
  unfold header Header.read
  refine (safe_token (by omega)).bind_lift ?_
  refine (safe_micros? clock _).bind_lift ?_
  dsimp only
  cases clock.micros? tokens[0] with
  | none => exact safe_pure (Except.error _)
  | some time =>
    refine (safe_token (Nat.lt_of_lt_of_le (by decide) hlen)).bind_lift ?_
    refine (safe_token (by omega)).bind_lift ?_
    refine safe_bind_except fun core _ => ?_
    refine (safe_token hpid).bind_lift ?_
    refine safe_bind_except fun pid _ => ?_
    refine (safe_token htid).bind_lift ?_
    refine safe_bind_except fun tid _ => ?_
    refine (safe_token (by omega)).bind_lift ?_
    refine (safe_token (by omega)).bind_lift ?_
    exact safe_pure _

theorem named_payload (header : Header) (payload : Payload) :
    { named header with payload } = named { header with payload } := by
  unfold named
  dsimp only
  split
  · rfl
  · rfl

/-- The fixed fields are read first, and what is decoded then is put into their header. -/
theorem safe_decoded {α β : Type} {pidIndex tidIndex : Nat}
    (enough : Header.headTokens ≤ tokens.length) (hpid : pidIndex < tokens.length)
    (htid : tidIndex < tokens.length) {m : Guarded α} {a : α} (hm : m.Safe a) (payload : Payload)
    {f : Header → α → Record} {g : Header → β} {k : β → Record}
    (hkept : ∀ header, f header a = k (g { header with payload })) :
    (header clock tokens pidIndex tidIndex >>= fun header =>
        liftM m >>= fun a => pure (f header a)).run.Safe
      ((Header.read clock tokens enough tokens[pidIndex] tokens[tidIndex] payload >>= fun header =>
        .ok (g header)).map k) := by
  have hheader := safe_header clock enough hpid htid
  rw [map_bind_ok, Header.read_eq_map]
  cases hfound : Header.read clock tokens enough tokens[pidIndex] tokens[tidIndex] [] with
  | error fault =>
    rw [hfound] at hheader
    exact hheader.bind (safe_pure _)
  | ok header =>
    rw [hfound] at hheader
    refine hheader.bind (hm.bind_lift ?_)
    rw [hkept]
    exact safe_pure _

theorem safe_record (dialect : Dialect) (h : Utf8.size (payloadText tokens dialect) ≤ limit) :
    (record limit clock tokens dialect).run.Safe (Record.read clock dialect tokens) := by
  by_cases hlen : tokens.length < dialect.minimum
  · have hcheck : checkLength tokens dialect = .error _ := if_pos hlen
    rw [Record.read_of_short clock hlen, record, hcheck]
    exact safe_pure _
  · have hcheck : checkLength tokens dialect = .ok () := if_neg hlen
    rw [record, hcheck]
    refine Safe.bind_except (x := .ok ()) (g := fun _ => Record.read clock dialect tokens)
      (safe_pure _) fun _ _ => ?_
    cases dialect with
    | kernel =>
      have hlen : 17 ≤ tokens.length := Nat.le_of_not_lt hlen
      simp only [Record.read, Switch.read, dif_pos (show Switch.minimum ≤ _ from hlen)]
      exact safe_decoded clock _ (by omega) (by omega) (safe_pairs h) _ fun header =>
        congrArg (Record.switch ⟨·⟩) (named_payload header _)
    | plain =>
      have hlen : 20 ≤ tokens.length := Nat.le_of_not_lt hlen
      simp only [Record.read, Signal.read, dif_pos (show userMinimum ≤ _ from hlen)]
      exact safe_decoded clock _ (by omega) (by omega) (safe_plain h) _ fun _ => rfl
    | structured =>
      have hlen : 20 ≤ tokens.length := Nat.le_of_not_lt hlen
      simp only [Record.read, Block.read, dif_pos (show userMinimum ≤ _ from hlen)]
      exact safe_decoded clock _ (by omega) (by omega) (safe_structured h) _ fun _ => rfl

theorem record_of_short {dialect : Dialect} (h : tokens.length < dialect.minimum) :
    (record limit clock tokens dialect).run =
      pure (.error (.tooFewTokens dialect tokens.length dialect.minimum)) := by
  rw [record, checkLength, if_pos h]
  rfl

end Records

section Lines

variable (limit : Nat) (clock : Clock) (dialect : Dialect)

/-- A line is cut into tokens; whether they name a switch is looked up where they may be too few. -/
def line (raw : Text) : Guarded (Bool × Except LineFault Record) := do
  let text ← body raw
  let tokens := Line.tokens text
  let found ← (record limit clock tokens dialect).run
  return (Line.namesSwitch tokens, found)

theorem size_body_le (raw : Text) : Utf8.size (Line.body raw) ≤ Utf8.size raw :=
  Utf8.size_le_of_sublist ((Line.unpadded_sublist _).trans (Text.dropEndWhile_sublist _ raw))

theorem size_payloadText_le (raw : Text) :
    Utf8.size (payloadText (Line.tokens (Line.body raw)) dialect) ≤ Utf8.size raw := by
  have hjoined := size_joinWith_le ((Line.tokens (Line.body raw)).drop dialect.minimum)
  have hdrop := spread_le_of_sublist
    (List.drop_sublist dialect.minimum (Line.tokens (Line.body raw)))
  have htokens := spread_tokens_le (Line.body raw)
  have hbody := size_body_le raw
  unfold payloadText
  omega

theorem accesses_body {raw : Text} {access : Access} (h : access ∈ (body raw).accesses) :
    ∃ t start stop, access = .slice t start stop := by
  unfold body at h
  dsimp only at h
  split at h
  · rcases mem_accesses_bind h with h | ⟨first, -, h⟩
    · exact ⟨_, _, _, List.mem_singleton.mp h⟩
    · rcases mem_accesses_bind h with h | ⟨rest, -, h⟩
      · exact ⟨_, _, _, List.mem_singleton.mp h⟩
      · exact nomatch h
  · exact nomatch h

variable {limit}

theorem safe_line {raw : Text} (h : Utf8.size raw ≤ limit) :
    (line limit clock dialect raw).Safe (Line.namesSwitch (Line.tokens (Line.body raw)),
      Record.read clock dialect (Line.tokens (Line.body raw))) :=
  (safe_body raw).bind ((safe_record clock dialect
    ((size_payloadText_le dialect raw).trans h)).bind (safe_pure _))

/-- A line of too few tokens is only cut. -/
theorem accesses_line_of_short {raw : Text}
    (h : (Line.tokens (Line.body raw)).length < dialect.minimum) {access : Access}
    (haccess : access ∈ (line limit clock dialect raw).accesses) :
    ∃ t start stop, access = .slice t start stop := by
  rcases mem_accesses_bind haccess with haccess | ⟨text, htext, haccess⟩
  · exact accesses_body haccess
  · obtain rfl : Line.body raw = text := Option.some.inj ((safe_body raw).result.symm.trans htext)
    dsimp only at haccess
    rw [record_of_short clock h] at haccess
    exact nomatch haccess

/-- Lines are read within range, whatever text they are and as whatever they are read: among numbers
that go as far as its own size, what is done for a line yields its record or the fault of it, and on
the way no token is read that is not there, no character is cut and no number leaves its range. A
line of too few tokens is refused before any of them is read. Payloads are decoded in range by
themselves as well. -/
theorem line_in_range {limit : Nat} {raw : Text} (h : Utf8.size raw ≤ limit) (clock : Clock)
    (dialect : Dialect) :
    let tokens := Line.tokens (Line.body raw)
    let least := if dialect = .kernel then 17 else 20
    (line limit clock dialect raw).Safe
      (Line.namesSwitch tokens, Record.read clock dialect tokens) ∧
    (tokens.length < least →
      Record.read clock dialect tokens = .error (.tooFewTokens dialect tokens.length least) ∧
      ∀ index count, .token index count ∉ (line limit clock dialect raw).accesses) ∧
    ∀ t, Utf8.size t ≤ limit → (pairs limit t).Safe (Payload.pairs t) ∧
      (plain limit t).Safe (Payload.plain t) ∧
      (structured limit t).Safe (Payload.structured t) := by
  intro tokens least
  have hleast : least = dialect.minimum := by cases dialect <;> rfl
  refine ⟨safe_line clock dialect h, fun hshort => ?_,
    fun t ht => ⟨safe_pairs ht, safe_plain ht, safe_structured ht⟩⟩
  rw [hleast] at hshort ⊢
  refine ⟨Record.read_of_short clock hshort, fun index count hindex => ?_⟩
  obtain ⟨_, _, _, hslice⟩ := accesses_line_of_short clock dialect hshort hindex
  exact nomatch hslice

/-- A line with padding and with characters of several bytes. -/
def paddedLine : Text :=
  ("[ 1.25] (+0.1) é pmtrace:block: \x7b cpu_id = 0 \x7d, \x7b procname = \"é\", vpid = 1, " ++
    "vtid = 2 \x7d, \x7b cat = \"\u2003é\", payload = \"\x7b\"n\":1.0\x7d\" \x7d").toList

/-- A line that breaks off. -/
def brokenLine : Text := "é [12.5]\t".toList

theorem line_in_range_padded :
    Utf8.size paddedLine ≤ 200 ∧
    (∃ record, (line 200 ⟨some 1⟩ .structured paddedLine).Safe (false, .ok record)) ∧
    Utf8.size brokenLine ≤ 200 ∧ (Line.tokens (Line.body brokenLine)).length < 17 ∧
    (line 200 ⟨none⟩ .kernel brokenLine).Safe (false, .error (.tooFewTokens .kernel 2 17)) ∧
    (∀ index count, .token index count ∉ (line 200 ⟨none⟩ .kernel brokenLine).accesses) ∧
    (pairs 200 brokenLine).Safe [] := by
  have hpadded : Utf8.size paddedLine ≤ 200 := by decide +kernel
  have hbroken : Utf8.size brokenLine ≤ 200 := by decide
  have hplain : Line.namesSwitch (Line.tokens (Line.body paddedLine)) = false := by decide +kernel
  obtain ⟨record, hrecord⟩ : ∃ record,
      Record.read ⟨some 1⟩ .structured (Line.tokens (Line.body paddedLine)) = .ok record :=
    exists_ok_of_isOk (by decide +kernel)
  have htokens : Line.tokens (Line.body brokenLine) = [['é'], "[12.5]".toList] := by decide
  have hshort : (Line.tokens (Line.body brokenLine)).length < 17 := by
    rw [htokens]
    decide
  have hnone : Payload.pairs brokenLine = [] := by decide
  have hread := (line_in_range hpadded ⟨some 1⟩ .structured).1
  rw [hplain, hrecord] at hread
  obtain ⟨hline, hfault, hpayload⟩ := line_in_range hbroken ⟨none⟩ .kernel
  obtain ⟨hrefused, hindex⟩ := hfault hshort
  rw [hrefused, htokens] at hline
  have hpairs := (hpayload brokenLine hbroken).1
  rw [hnone] at hpairs
  exact ⟨hpadded, ⟨record, hread⟩, hbroken, hshort, hline, hindex, hpairs⟩

end Lines

end Guarded
end TraceReport
