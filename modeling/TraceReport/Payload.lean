import TraceReport.Json.Reader
import TraceReport.Json.Writer
import TraceReport.Text.Utf8

namespace TraceReport

abbrev Payload := Table Text Text

namespace Payload

/-- Drops `mark` from the front, if it stands there. -/
def dropFront (mark : Char) : Text → Text
  | c :: rest => if c = mark then rest else c :: rest
  | [] => []

def dropBack (mark : Char) (t : Text) : Text :=
  if t.getLast? = some mark then t.dropLast else t

/-- Takes off one pair of braces, with the blanks and the commas around it. -/
def unbraced (t : Text) : Text :=
  let opened := dropFront '\x7b' (Text.trim t)
  let trailing := Text.trimEnd (Text.dropEndWhile (· == ',') opened)
  Text.trim (dropBack '\x7d' trailing)

/-- Where a scan stands: how many brackets are open, and what quotes make of the next character. -/
structure Scan where
  depth : Nat
  quoted : Bool
  escaped : Bool
  deriving DecidableEq, Repr

def Scan.start : Scan := ⟨0, false, false⟩

def Scan.step (s : Scan) (c : Char) : Scan :=
  if s.quoted then
    if s.escaped then { s with escaped := false }
    else if c = '\\' then { s with escaped := true }
    else if c = '"' then { s with quoted := false }
    else s
  else if c = '"' then { s with quoted := true }
  else if c = '\x7b' || c = '[' || c = '(' then { s with depth := s.depth + 1 }
  else if c = '\x7d' || c = ']' || c = ')' then { s with depth := s.depth - 1 }
  else s

/-- A comma outside quotes and brackets ends a field. -/
def Scan.separates (s : Scan) (c : Char) : Bool := !s.quoted && s.depth == 0 && c == ','

/-- The stretches between separating commas, as they stand. -/
def stretches (s : Scan) : Text → List Text
  | [] => [[]]
  | c :: rest =>
    if s.separates c then [] :: stretches s rest
    else match stretches (s.step c) rest with
      | [] => [[c]]
      | w :: ws => (c :: w) :: ws

/-- A field and the byte at which it begins. -/
structure Field where
  offset : Nat
  text : Text
  deriving DecidableEq, Repr

/-- Trims each stretch and leaves out the empty ones; each is followed by one comma byte. -/
def place (offset : Nat) : List Text → List Field
  | [] => []
  | stretch :: rest =>
    let body := Text.trimStart stretch
    let field : Field := ⟨offset + (Utf8.size stretch - Utf8.size body), Text.trimEnd body⟩
    let later := place (offset + Utf8.size stretch + 1) rest
    if field.text.isEmpty then later else field :: later

def split (t : Text) : List Field := place 0 (stretches .start t)

/-- Key and value around the first equals sign; a pair without a key is none. -/
def pair? (field : Text) : Option (Text × Text) :=
  match Text.cut? '=' field with
  | none => none
  | some (key, value) =>
    if (Text.trim key).isEmpty then none else some (Text.trim key, Text.trim value)

/-- The pairs of a payload in its own braces, values without their quotes. -/
def pairs (t : Text) : Payload :=
  Table.ofPairs ((split (unbraced t)).filterMap fun field =>
    (pair? field.text).map fun (key, value) => (key, Text.unquote value))

/-- Writes each `::` as one underscore, from the left. -/
def joinScopes : Text → Text
  | ':' :: ':' :: rest => '_' :: joinScopes rest
  | c :: rest => c :: joinScopes rest
  | [] => []

def scopeMark : Text := "::".toList

/-- The short name of a scope: the last qualified word before the parameters, if there is one. -/
def shortScope (scope : Text) : Text :=
  if !scope.mentions scopeMark then scope
  else
    let front := scope.takeWhile (· != '(')
    let qualified := (Text.words front).filter fun word => word.mentions scopeMark
    joinScopes (qualified.getLast?.getD (Text.trim front))

def scopeKey : Text := "scope".toList

/-- A plain payload: its pairs, and the signal that a scope gives when it is the only field. -/
def plain (t : Text) : Payload × Option Text :=
  let inner := unbraced t
  match split inner with
  | [field] =>
    match pair? field.text with
    | some (key, value) =>
      if key = scopeKey then
        let scope := Text.trim (Text.unquote value)
        ([(scopeKey, scope)], some (shortScope scope))
      else (pairs inner, none)
    | none => (pairs inner, none)
  | _ => (pairs inner, none)

/-- Doubles at least this large keep their own text even when they are whole. -/
def wholeLimit : Nat := 9000000000000000

def realText (x : Binary64) : Text :=
  match x.integer? with
  | some n =>
    if n.natAbs < wholeLimit then Numeral.signed n
    else (Decimal.Style.plain.text? x).getD []
  | none => (Decimal.Style.plain.text? x).getD []

/-- A member of a JSON payload as the text of an argument. -/
def argumentText : Json → Text
  | .string s => s
  | .int n => Numeral.signed n
  | .real x => realText x
  | other => other.text

/-- The members of a JSON object; anything else adds none. -/
def members (json : Text) : List (Text × Text) :=
  match Json.read? json with
  | some (.object found) => found.map fun (key, value) => (key, argumentText value)
  | _ => []

def payloadKey : Text := "payload".toList

/-- Takes fields in order up to the first called `payload`, whose value reaches from there to the
end of the whole text and is read as JSON. -/
def collect (inner : Text) (done : Payload) : List Field → Payload
  | [] => done
  | field :: rest =>
    match pair? field.text with
    | none => collect inner done rest
    | some (key, value) =>
      if key = payloadKey then
        let raw := (pair? (Utf8.dropBytes field.offset inner)).elim [] Prod.snd
        done.insertAll (members (Text.unquote raw))
      else collect inner (done.insert key (Text.unquote value)) rest

def structured (t : Text) : Payload :=
  let inner := unbraced t
  collect inner [] (split inner)

end Payload
end TraceReport
