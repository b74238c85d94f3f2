import TraceReport.Proofs.Json.Numbers
import TraceReport.Proofs.Json.Strings

namespace TraceReport.Json

/-- A value as a document tells it: numbers are exact, and members stay in the order in which they
are written. -/
inductive Value
  | null
  | bool (value : Bool)
  | number (value : ℚ)
  | string (value : Text)
  | array (items : List Value)
  | object (members : List (Text × Value))

namespace Value

def word? : Text → Option (Value × Text)
  | 't' :: 'r' :: 'u' :: 'e' :: rest => some (.bool true, rest)
  | 'f' :: 'a' :: 'l' :: 's' :: 'e' :: rest => some (.bool false, rest)
  | 'n' :: 'u' :: 'l' :: 'l' :: rest => some (.null, rest)
  | _ => none

mutual

/-- Reads one value by the grammar of JSON texts, nested as deep as may be. -/
def value? : (fuel : Nat) → Text → Option (Value × Text)
  | 0, _ => none
  | fuel + 1, t =>
    match skipSpace t with
    | [] => none
    | c :: rest =>
      if c = '"' then (string? .character [] rest).map fun (s, rest) => (.string s, rest)
      else if c = '[' then
        match skipSpace rest with
        | ']' :: rest => some (.array [], rest)
        | rest => (items? fuel rest).map fun (items, rest) => (.array items, rest)
      else if c = '\x7b' then
        match skipSpace rest with
        | '\x7d' :: rest => some (.object [], rest)
        | rest => (members? fuel rest).map fun (members, rest) => (.object members, rest)
      else if c = '-' || c.isDigit then
        (literal? (c :: rest)).map fun (l, rest) => (.number l.value, rest)
      else word? (c :: rest)

/-- The items up to the closing bracket; a comma is followed by one more. -/
def items? : (fuel : Nat) → Text → Option (List Value × Text)
  | 0, _ => none
  | fuel + 1, t =>
    match value? fuel t with
    | none => none
    | some (item, rest) =>
      match skipSpace rest with
      | ',' :: rest => (items? fuel rest).map fun (items, rest) => (item :: items, rest)
      | ']' :: rest => some ([item], rest)
      | _ => none

/-- The members up to the closing brace. -/
def members? : (fuel : Nat) → Text → Option (List (Text × Value) × Text)
  | 0, _ => none
  | fuel + 1, t =>
    match skipSpace t with
    | '"' :: rest =>
      match string? .character [] rest with
      | none => none
      | some (key, rest) =>
        match skipSpace rest with
        | ':' :: rest =>
          match value? fuel rest with
          | none => none
          | some (value, rest) =>
            match skipSpace rest with
            | ',' :: rest =>
              (members? fuel rest).map fun (members, rest) => ((key, value) :: members, rest)
            | '\x7d' :: rest => some ([(key, value)], rest)
            | _ => none
        | _ => none
    | _ => none

end

/-- Reads a whole text as one value with nothing but space around it. -/
def read? (t : Text) : Option Value :=
  match value? (2 * t.length) t with
  | some (value, rest) => if (skipSpace rest).isEmpty then some value else none
  | none => none

/-- No comma before a bracket, no zero before a digit, no bare line break in a string and nothing
after the value. -/
example : ["[1,]", "01", "\"\n\"", "1 2"].all fun t => (read? t.toList).isNone := by decide

end Value

mutual

/-- What the text of a value tells. A double that is no number tells null. -/
def value : Json → Value
  | .null => .null
  | .bool b => .bool b
  | .int n => .number n
  | .real x => x.written?.elim .null .number
  | .string s => .string s
  | .array items => .array (values items)
  | .object members => .object (memberValues members)

def values : List Json → List Value
  | [] => []
  | item :: rest => item.value :: values rest

def memberValues : List (Text × Json) → List (Text × Value)
  | [] => []
  | (key, item) :: rest => (key, item.value) :: memberValues rest

end

/-- Characters that stand after a value in a document. -/
theorem ends_cons {c : Char} (hc : c ∈ [',', ']', '\x7d', '\n']) (rest : Text) :
    Ends (c :: rest) := by
  intro d hd
  obtain rfl := Option.some.inj hd
  simp only [List.mem_cons, List.not_mem_nil, or_false] at hc
  rcases hc with rfl | rfl | rfl | rfl <;> decide

theorem ends_nil : Ends [] := by
  intro c hc
  simp at hc

theorem skipSpace_cons {c : Char} (hc : isSpace c = false) (rest : Text) :
    skipSpace (c :: rest) = c :: rest := by
  simp [skipSpace, hc]

theorem skipSpace_lineFeed (t : Text) : skipSpace ('\n' :: t) = skipSpace t := by
  simp [skipSpace, isSpace]

theorem isSpace_of_isDigit {c : Char} (hc : c.isDigit = true) : isSpace c = false := by
  by_contra hs
  have htrue : isSpace c = true := by simpa using hs
  have hspace : c = ' ' ∨ c = '\t' ∨ c = '\n' ∨ c = '\r' := by
    simpa [isSpace, or_assoc] using htrue
  rcases hspace with rfl | rfl | rfl | rfl <;> exact absurd hc (by decide)

/-- What a value begins with: no space, and not what closes an array. -/
structure Opens (c : Char) : Prop where
  space : isSpace c = false
  bracket : c ≠ ']'

theorem opens_of_literal {c : Char} (hc : c = '-' ∨ c.isDigit = true) : Opens c := by
  rcases hc with rfl | hc
  · exact ⟨by decide, by decide⟩
  · refine ⟨isSpace_of_isDigit hc, ?_⟩
    rintro rfl
    exact absurd hc (by decide)

theorem text_opens (j : Json) : ∃ c t, j.text = c :: t ∧ Opens c := by
  have literal (l : Literal) (hv : l.Valid) : ∃ c t, l.text = c :: t ∧ Opens c := by
    obtain ⟨c, t, ht, hc⟩ := hv.head?
    exact ⟨c, t, ht, opens_of_literal hc⟩
  have plain : Opens 'n' ∧ Opens 't' ∧ Opens 'f' ∧ Opens '"' ∧ Opens '[' ∧ Opens '\x7b' := by
    refine ⟨?_, ?_, ?_, ?_, ?_, ?_⟩ <;> exact ⟨by decide, by decide⟩
  obtain ⟨hn, ht, hf, hq, hb, ho⟩ := plain
  cases j with
  | null => exact ⟨'n', _, rfl, hn⟩
  | bool b =>
    cases b with
    | true => exact ⟨'t', _, rfl, ht⟩
    | false => exact ⟨'f', _, rfl, hf⟩
  | int n =>
    rw [text, ← intLiteral_text]
    exact literal _ (intLiteral_valid n)
  | real x =>
    rw [text]
    cases hx : x.written? with
    | none =>
      rw [realText_of_not_written hx]
      exact ⟨'n', _, rfl, hn⟩
    | some q =>
      obtain ⟨l, hv, hl, -⟩ := exists_realLiteral hx
      exact hl ▸ literal l hv
  | string s => exact ⟨'"', _, rfl, hq⟩
  | array items => exact ⟨'[', _, rfl, hb⟩
  | object members => exact ⟨'\x7b', _, rfl, ho⟩

section

variable {fuel : Nat} {rest : Text}

/-- A line may break before a value. -/
theorem value?_lineFeed (t : Text) : Value.value? fuel ('\n' :: t) = Value.value? fuel t := by
  cases fuel with
  | zero => rfl
  | succ n => rw [Value.value?, Value.value?, skipSpace_lineFeed]

theorem items?_lineFeed (t : Text) : Value.items? fuel ('\n' :: t) = Value.items? fuel t := by
  cases fuel with
  | zero => rfl
  | succ n => rw [Value.items?, Value.items?, value?_lineFeed]

theorem value?_literal {l : Literal} (hv : l.Valid) (hf : 0 < fuel) (hr : Ends rest) :
    Value.value? fuel (l.text ++ rest) = some (.number l.value, rest) := by
  obtain ⟨n, rfl⟩ : ∃ n, fuel = n + 1 := ⟨fuel - 1, by omega⟩
  have hread := literal?_text hv hr
  obtain ⟨c, t, ht, hc⟩ := hv.head?
  have hopens := opens_of_literal hc
  have hnot : c ≠ '"' ∧ c ≠ '[' ∧ c ≠ '\x7b' := by
    rcases hc with rfl | hc
    · decide
    · refine ⟨?_, ?_, ?_⟩ <;> rintro rfl <;> exact absurd hc (by decide)
  have hnumber : (c = '-' || c.isDigit) = true := by simpa using hc
  rw [ht, List.cons_append] at hread ⊢
  rw [Value.value?, skipSpace_cons hopens.space]
  simp only [if_neg hnot.1, if_neg hnot.2.1, if_neg hnot.2.2, if_pos hnumber, hread,
    Option.map_some]

theorem value?_string (s : Text) (hf : 0 < fuel) :
    Value.value? fuel (stringText s ++ rest) = some (.string s, rest) := by
  obtain ⟨n, rfl⟩ : ∃ n, fuel = n + 1 := ⟨fuel - 1, by omega⟩
  obtain ⟨quoted, ht, hs⟩ := string?_stringText rest s
  rw [ht, Value.value?, skipSpace_cons (by decide)]
  simp [hs]

theorem value?_null (hf : 0 < fuel) :
    Value.value? fuel ("null".toList ++ rest) = some (.null, rest) := by
  obtain ⟨n, rfl⟩ : ∃ n, fuel = n + 1 := ⟨fuel - 1, by omega⟩
  change Value.value? (n + 1) ('n' :: 'u' :: 'l' :: 'l' :: rest) = _
  rw [Value.value?, skipSpace_cons (by decide)]
  rfl

theorem value?_bool (b : Bool) (hf : 0 < fuel) :
    Value.value? fuel ((Json.bool b).text ++ rest) = some (.bool b, rest) := by
  obtain ⟨n, rfl⟩ : ∃ n, fuel = n + 1 := ⟨fuel - 1, by omega⟩
  cases b with
  | true =>
    change Value.value? (n + 1) ('t' :: 'r' :: 'u' :: 'e' :: rest) = _
    rw [Value.value?, skipSpace_cons (by decide)]
    rfl
  | false =>
    change Value.value? (n + 1) ('f' :: 'a' :: 'l' :: 's' :: 'e' :: rest) = _
    rw [Value.value?, skipSpace_cons (by decide)]
    rfl

theorem value?_emptyArray {more : Text} (hf : 0 < fuel) (hmore : skipSpace more = ']' :: rest) :
    Value.value? fuel ('[' :: more) = some (.array [], rest) := by
  obtain ⟨n, rfl⟩ : ∃ n, fuel = n + 1 := ⟨fuel - 1, by omega⟩
  rw [Value.value?, skipSpace_cons (by decide)]
  simp [hmore]

theorem value?_emptyObject (hf : 0 < fuel) :
    Value.value? fuel ('\x7b' :: '\x7d' :: rest) = some (.object [], rest) := by
  obtain ⟨n, rfl⟩ : ∃ n, fuel = n + 1 := ⟨fuel - 1, by omega⟩
  rw [Value.value?, skipSpace_cons (by decide)]
  simp [skipSpace_cons (show isSpace '\x7d' = false by decide)]

theorem value?_array {c : Char} {t more : Text} {items : List Value}
    (hmore : skipSpace more = c :: t) (hc : c ≠ ']')
    (hitems : Value.items? fuel (c :: t) = some (items, rest)) :
    Value.value? (fuel + 1) ('[' :: more) = some (.array items, rest) := by
  rw [Value.value?, skipSpace_cons (by decide)]
  simp only [hmore, if_pos, if_neg (show '[' ≠ '"' by decide)]
  split
  · rename_i h
    exact absurd (List.cons.inj h).1 hc
  · rw [hitems]
    rfl

theorem value?_object {key t : Text} {members : List (Text × Value)}
    (hmembers : Value.members? fuel (stringText key ++ t) = some (members, rest)) :
    Value.value? (fuel + 1) ('\x7b' :: (stringText key ++ t)) = some (.object members, rest) := by
  obtain ⟨quoted, hq, -⟩ := string?_stringText t key
  rw [hq] at hmembers ⊢
  rw [Value.value?, skipSpace_cons (by decide)]
  simp [skipSpace_cons (show isSpace '"' = false by decide), hmembers]

section

variable {t after more : Text} {item : Value}

theorem items?_last (hitem : Value.value? fuel t = some (item, after))
    (hafter : skipSpace after = ']' :: rest) :
    Value.items? (fuel + 1) t = some ([item], rest) := by
  rw [Value.items?, hitem]
  simp [hafter]

theorem items?_more {items : List Value} (hitem : Value.value? fuel t = some (item, after))
    (hafter : skipSpace after = ',' :: more)
    (hmore : Value.items? fuel more = some (items, rest)) :
    Value.items? (fuel + 1) t = some (item :: items, rest) := by
  rw [Value.items?, hitem]
  simp [hafter, hmore]

theorem members?_last (key : Text) (hitem : Value.value? fuel t = some (item, after))
    (hafter : skipSpace after = '\x7d' :: rest) :
    Value.members? (fuel + 1) (stringText key ++ ':' :: t) = some ([(key, item)], rest) := by
  obtain ⟨quoted, hq, hs⟩ := string?_stringText (':' :: t) key
  rw [hq, Value.members?, skipSpace_cons (by decide)]
  simp [hs, skipSpace_cons (show isSpace ':' = false by decide), hitem, hafter]

theorem members?_more (key : Text) {members : List (Text × Value)}
    (hitem : Value.value? fuel t = some (item, after)) (hafter : skipSpace after = ',' :: more)
    (hmore : Value.members? fuel more = some (members, rest)) :
    Value.members? (fuel + 1) (stringText key ++ ':' :: t) =
      some ((key, item) :: members, rest) := by
  obtain ⟨quoted, hq, hs⟩ := string?_stringText (':' :: t) key
  rw [hq, Value.members?, skipSpace_cons (by decide)]
  simp [hs, skipSpace_cons (show isSpace ':' = false by decide), hitem, hafter, hmore]

end

end

theorem itemsText_cons_cons (item next : Json) (more : List Json) :
    itemsText (item :: next :: more) = item.text ++ ',' :: itemsText (next :: more) := rfl

theorem membersText_cons_cons (key : Text) (item : Json) (next : Text × Json)
    (more : List (Text × Json)) :
    membersText ((key, item) :: next :: more) =
      stringText key ++ ':' :: item.text ++ ',' :: membersText (next :: more) := rfl

theorem itemsText_opens (item : Json) (more : List Json) :
    ∃ c t, itemsText (item :: more) = c :: t ∧ Opens c := by
  obtain ⟨c, t, ht, hc⟩ := text_opens item
  cases more with
  | nil => exact ⟨c, t, ht, hc⟩
  | cons next more => exact ⟨c, _, by rw [itemsText_cons_cons, ht, List.cons_append], hc⟩

theorem membersText_cons (key : Text) (item : Json) (more : List (Text × Json)) :
    ∃ t, membersText ((key, item) :: more) = stringText key ++ t := by
  cases more with
  | nil => exact ⟨_, rfl⟩
  | cons next more => exact ⟨_, List.append_assoc _ _ _⟩

mutual

/-- The text of a value is read as what the value tells, whatever stands after it that ends it. -/
theorem value?_text (j : Json) {fuel : Nat} {rest : Text} (hf : 2 * j.text.length ≤ fuel)
    (hr : Ends rest) : Value.value? fuel (j.text ++ rest) = some (j.value, rest) := by
  obtain ⟨c, t, ht, hc⟩ := text_opens j
  have hlength : j.text.length = t.length + 1 := by rw [ht, List.length_cons]
  have hpos : 0 < fuel := by omega
  cases j with
  | null => exact value?_null hpos
  | bool b => exact value?_bool b hpos
  | int n =>
    rw [text, ← intLiteral_text, value?_literal (intLiteral_valid n) hpos hr, intLiteral_value]
    rfl
  | real x =>
    rw [text, value]
    cases hx : x.written? with
    | none =>
      rw [realText_of_not_written hx]
      exact value?_null hpos
    | some q =>
      obtain ⟨l, hv, hl, hq⟩ := exists_realLiteral hx
      rw [← hl, value?_literal hv hpos hr, hq]
      rfl
  | string s => exact value?_string s hpos
  | array items =>
    cases items with
    | nil => exact value?_emptyArray hpos (skipSpace_cons (by decide) rest)
    | cons item more =>
      obtain ⟨n, rfl⟩ : ∃ n, fuel = n + 1 := ⟨fuel - 1, by omega⟩
      have hsize : 2 * (itemsText (item :: more)).length + 1 ≤ n := by
        simp only [text, List.length_append, List.length_cons, List.length_nil] at hf
        omega
      have hitems : Value.items? n (itemsText (item :: more) ++ ']' :: rest) =
          some (values (item :: more), rest) := items?_text (item :: more) (by simp) hsize
      obtain ⟨d, w, hw, hd⟩ := itemsText_opens item more
      rw [hw, List.cons_append] at hitems
      rw [text, hw]
      simpa [value] using value?_array (skipSpace_cons hd.space _) hd.bracket hitems
  | object members =>
    cases members with
    | nil => exact value?_emptyObject hpos
    | cons member more =>
      obtain ⟨key, item⟩ := member
      obtain ⟨n, rfl⟩ : ∃ n, fuel = n + 1 := ⟨fuel - 1, by omega⟩
      have hsize : 2 * (membersText ((key, item) :: more)).length + 1 ≤ n := by
        simp only [text, List.length_append, List.length_cons, List.length_nil] at hf
        omega
      have hmembers : Value.members? n (membersText ((key, item) :: more) ++ '\x7d' :: rest) =
          some (memberValues ((key, item) :: more), rest) :=
        members?_text ((key, item) :: more) (by simp) hsize
      obtain ⟨w, hw⟩ := membersText_cons key item more
      rw [hw, List.append_assoc] at hmembers
      rw [text, hw]
      simpa [value] using value?_object hmembers

theorem items?_text (items : List Json) {fuel : Nat} {rest : Text} (hne : items ≠ [])
    (hf : 2 * (itemsText items).length + 1 ≤ fuel) :
    Value.items? fuel (itemsText items ++ ']' :: rest) = some (values items, rest) := by
  obtain ⟨n, rfl⟩ : ∃ n, fuel = n + 1 := ⟨fuel - 1, by omega⟩
  match items with
  | [] => exact absurd rfl hne
  | [item] =>
    rw [itemsText] at hf ⊢
    have hitem : Value.value? n (item.text ++ ']' :: rest) = some (item.value, ']' :: rest) :=
      value?_text item (by omega) (ends_cons (by simp) rest)
    exact items?_last hitem (skipSpace_cons (by decide) rest)
  | item :: next :: more =>
    rw [itemsText_cons_cons] at hf ⊢
    rw [List.length_append, List.length_cons] at hf
    rw [List.append_assoc, List.cons_append]
    have hitem := value?_text item (show 2 * item.text.length ≤ n by omega)
      (ends_cons (show ',' ∈ _ by simp) (itemsText (next :: more) ++ ']' :: rest))
    have hmore : Value.items? n (itemsText (next :: more) ++ ']' :: rest) =
        some (values (next :: more), rest) := items?_text (next :: more) (by simp) (by omega)
    exact items?_more hitem (skipSpace_cons (by decide) _) hmore

theorem members?_text (members : List (Text × Json)) {fuel : Nat} {rest : Text}
    (hne : members ≠ []) (hf : 2 * (membersText members).length + 1 ≤ fuel) :
    Value.members? fuel (membersText members ++ '\x7d' :: rest) =
      some (memberValues members, rest) := by
  obtain ⟨n, rfl⟩ : ∃ n, fuel = n + 1 := ⟨fuel - 1, by omega⟩
  match members with
  | [] => exact absurd rfl hne
  | [(key, item)] =>
    rw [membersText] at hf ⊢
    rw [List.length_append, List.length_cons] at hf
    rw [List.append_assoc, List.cons_append]
    have hitem : Value.value? n (item.text ++ '\x7d' :: rest) = some (item.value, '\x7d' :: rest) :=
      value?_text item (by omega) (ends_cons (by simp) rest)
    exact members?_last key hitem (skipSpace_cons (by decide) rest)
  | (key, item) :: (nextKey, nextItem) :: more =>
    rw [membersText_cons_cons] at hf ⊢
    simp only [List.length_append, List.length_cons] at hf
    simp only [List.append_assoc, List.cons_append]
    have hitem := value?_text item (show 2 * item.text.length ≤ n by omega)
      (ends_cons (show ',' ∈ _ by simp)
        (membersText ((nextKey, nextItem) :: more) ++ '\x7d' :: rest))
    have hmore : Value.members? n (membersText ((nextKey, nextItem) :: more) ++ '\x7d' :: rest) =
        some (memberValues ((nextKey, nextItem) :: more), rest) :=
      members?_text ((nextKey, nextItem) :: more) (by simp) (by omega)
    exact members?_more key hitem (skipSpace_cons (by decide) _) hmore

end

theorem memberValues_append (members more : List (Text × Json)) :
    memberValues (members ++ more) = memberValues members ++ memberValues more := by
  induction members with
  | nil => rfl
  | cons member rest ih =>
    obtain ⟨key, item⟩ := member
    rw [List.cons_append, memberValues, memberValues, ih, List.cons_append]

mutual

/-- No text of a value breaks its line. -/
theorem text_no_lineFeed (j : Json) : '\n' ∉ j.text := by
  cases j with
  | null => decide
  | bool b => cases b <;> decide
  | int n =>
    rw [text, ← intLiteral_text]
    exact (intLiteral_valid n).no_lineFeed
  | real x => exact realText_no_lineFeed x
  | string s => exact stringText_no_lineFeed s
  | array items => simpa [text] using itemsText_no_lineFeed items
  | object members => simpa [text] using membersText_no_lineFeed members

theorem itemsText_no_lineFeed (items : List Json) : '\n' ∉ itemsText items := by
  match items with
  | [] => exact List.not_mem_nil
  | [item] => exact text_no_lineFeed item
  | item :: next :: more =>
    simpa [itemsText_cons_cons] using
      ⟨text_no_lineFeed item, itemsText_no_lineFeed (next :: more)⟩

theorem membersText_no_lineFeed (members : List (Text × Json)) :
    '\n' ∉ membersText members := by
  match members with
  | [] => exact List.not_mem_nil
  | [(key, item)] =>
    simpa [membersText] using ⟨stringText_no_lineFeed key, text_no_lineFeed item⟩
  | (key, item) :: (nextKey, nextItem) :: more =>
    simpa [membersText_cons_cons] using
      ⟨stringText_no_lineFeed key, text_no_lineFeed item,
        membersText_no_lineFeed ((nextKey, nextItem) :: more)⟩

end

end TraceReport.Json
