import TraceReport.Clock
import TraceReport.Payload
import TraceReport.Line
import TraceReport.Text.Quoted

namespace TraceReport

abbrev ProcessId := Int

abbrev ThreadId := Int

abbrev Core := Nat

def ProcessId.label (id : ProcessId) : Text := "PID:".toList ++ Numeral.signed id

def ThreadId.label (id : ThreadId) : Text := "TID:".toList ++ Numeral.signed id

/-- Cores are numbered within 32 bits. -/
def Core.ofInt? (n : Int) : Option Core :=
  if 0 ≤ n ∧ n ≤ Numeral.maxWord32 then some n.toNat else none

def Core.label (core : Core) : Text := "CPU:".toList ++ Numeral.decimal core

/-- Why a line is no record. -/
inductive LineFault
  | tooFewTokens (dialect : Dialect) (found required : Nat)
  | badTimestamp (stamp : Text)
  | badField (field : String) (value : Text)
  deriving DecidableEq, Repr

def LineFault.message : LineFault → String
  | .tooFewTokens dialect found required =>
    s!"{dialect.label} line has {found} tokens, at least {required} required"
  | .badTimestamp stamp => "Malformed timestamp field: " ++ String.ofList (Text.quoted stamp)
  | .badField field value => s!"Malformed {field} field: " ++ String.ofList (Text.quoted value)

/-- The part all records have: when and where an event happened, and its payload. -/
structure Header where
  stamp : Text
  time : Micros
  host : Text
  provider : Text
  event : Text
  cpu : Text
  core : Core
  process : Text
  pid : ProcessId
  tid : ThreadId
  payload : Payload
  deriving DecidableEq, Repr

namespace Header

/-- What a payload look-up yields for a key that is not there. -/
def noData : Text := "NODATA".toList

def value (h : Header) (key : Text) : Text := (h.payload.find? key).getD noData

def without (marks : Text) (t : Text) : Text := t.filter fun c => !marks.contains c

def core? (cpu : Text) : Except LineFault Core :=
  match Numeral.natural? Numeral.maxWord32 cpu with
  | some n => .ok n
  | none => .error (.badField "cpu_id" cpu)

def integer? (field : String) (value : Text) : Except LineFault Int :=
  match Numeral.integer? value with
  | some n => .ok n
  | none => .error (.badField field value)

/-- The tokens up to the process name stand in the same place in every record. -/
def headTokens : Nat := 13

/-- Reads the fixed fields. The first field that fails, in the order stamp, core, process id,
thread id, decides the fault. -/
def read (clock : Clock) (tokens : List Text) (enough : headTokens ≤ tokens.length)
    (pidToken tidToken : Text) (payload : Payload) : Except LineFault Header := do
  have : 13 ≤ tokens.length := enough
  let stamp := tokens[0]
  let time ← match clock.micros? stamp with
    | some time => .ok time
    | none => .error (.badTimestamp stamp)
  let names := Line.colonParts tokens[3]
  let cpu := without [' '] tokens[7]
  let core ← core? cpu
  let pid ← integer? "process id" (without [',', ' '] pidToken)
  let tid ← integer? "thread id" (without [',', ' '] tidToken)
  return {
    stamp, time, cpu, core, pid, tid, payload
    host := tokens[2].takeWhile (· != ':')
    provider := (names[0]?).getD []
    event := (names[1]?).getD []
    process := without ['"', ','] tokens[12] }

def describe (h : Header) : Text :=
  "ts(".toList ++ Numeral.decimal h.time ++ ") host(".toList ++ h.host ++
    ") provider(".toList ++ h.provider ++ ") type(".toList ++ h.event ++
    ") cpu(".toList ++ h.cpu ++ ") proc(".toList ++ h.process ++
    ") pid(".toList ++ Numeral.signed h.pid ++ ") tid(".toList ++ Numeral.signed h.tid ++ [')']

def describePayload (h : Header) : Text :=
  h.payload.flatMap fun (key, value) => key ++ '(' :: value ++ ") ".toList

end Header

/-- A scheduler switch: the header is about the task that leaves its core. -/
structure Switch where
  header : Header
  deriving DecidableEq, Repr

namespace Switch

def minimum : Nat := 17

/-- Switches carry one id, which stands for process and thread. -/
def read (clock : Clock) (tokens : List Text) : Except LineFault Switch :=
  if h : minimum ≤ tokens.length then do
    have : 17 ≤ tokens.length := h
    let id := tokens[15]
    let payload := Payload.pairs (Text.joinWith [' '] (tokens.drop minimum))
    let header ← Header.read clock tokens (Nat.le_trans (by decide) h) id id payload
    return ⟨if header.event.isEmpty then { header with event := header.provider } else header⟩
  else .error (.tooFewTokens .kernel tokens.length minimum)

def nextName (s : Switch) : Text := s.header.value "next_comm".toList

def nextThread (s : Switch) : Except LineFault ThreadId :=
  Header.integer? "next_tid" (s.header.value "next_tid".toList)

def describe (s : Switch) : Text := s.header.describe ++ '\n' :: s.header.describePayload

end Switch

def userMinimum : Nat := 20

/-- A user record with plain pairs; the signal is empty when the payload gives none. -/
structure Signal where
  header : Header
  signal : Text
  deriving DecidableEq, Repr

namespace Signal

/-- Events that are their own signal. -/
def selfNamed : List Text :=
  ["soinfo".toList, "touchcoordinate".toList, "message".toList, "keyValue".toList]

def read (clock : Clock) (tokens : List Text) : Except LineFault Signal :=
  if h : userMinimum ≤ tokens.length then do
    have : 20 ≤ tokens.length := h
    let (payload, scope) := Payload.plain (Text.joinWith [' '] (tokens.drop userMinimum))
    let header ← Header.read clock tokens (Nat.le_trans (by decide) h) tokens[15] tokens[18] payload
    return ⟨header, scope.getD (if selfNamed.contains header.event then header.event else [])⟩
  else .error (.tooFewTokens .plain tokens.length userMinimum)

def describe (s : Signal) : Text :=
  s.header.describe ++ " signal(".toList ++ s.signal ++ ")\n".toList ++ s.header.describePayload

end Signal

/-- A user record with a category, a name and arguments from a JSON object. -/
structure Block where
  header : Header
  deriving DecidableEq, Repr

namespace Block

def categoryKey : Text := "cat".toList

def nameKey : Text := "name".toList

def read (clock : Clock) (tokens : List Text) : Except LineFault Block :=
  if h : userMinimum ≤ tokens.length then do
    have : 20 ≤ tokens.length := h
    let payload := Payload.structured (Text.joinWith [' '] (tokens.drop userMinimum))
    let header ← Header.read clock tokens (Nat.le_trans (by decide) h) tokens[15] tokens[18] payload
    return ⟨header⟩
  else .error (.tooFewTokens .structured tokens.length userMinimum)

def category (b : Block) : Text := b.header.value categoryKey

def name (b : Block) : Text := b.header.value nameKey

/-- The payload but for category and name. -/
def arguments (b : Block) : List (Text × Text) :=
  b.header.payload.filter fun (key, _) => key != categoryKey && key != nameKey

def describe (b : Block) : Text :=
  b.header.describe ++ " cat(".toList ++ b.category ++ ") name(".toList ++ b.name ++
    ")\n".toList ++ b.header.describePayload

end Block

/-- A record that a program wrote about itself. -/
inductive UserRecord
  | plain (s : Signal)
  | structured (b : Block)
  deriving DecidableEq, Repr

namespace UserRecord

def dialect : UserRecord → Dialect
  | .plain _ => .plain
  | .structured _ => .structured

def header : UserRecord → Header
  | .plain s => s.header
  | .structured b => b.header

/-- The name under which groups look for a record. -/
def signal : UserRecord → Text
  | .plain s => s.signal
  | .structured b => b.name

def describe : UserRecord → Text
  | .plain s => s.describe
  | .structured b => b.describe

end UserRecord

inductive Record
  | switch (s : Switch)
  | user (u : UserRecord)
  deriving DecidableEq, Repr

namespace Record

def read (clock : Clock) (dialect : Dialect) (tokens : List Text) : Except LineFault Record :=
  match dialect with
  | .kernel => (Switch.read clock tokens).map .switch
  | .plain => (Signal.read clock tokens).map fun s => .user (.plain s)
  | .structured => (Block.read clock tokens).map fun b => .user (.structured b)

def dialect : Record → Dialect
  | .switch _ => .kernel
  | .user u => u.dialect

def header : Record → Header
  | .switch s => s.header
  | .user u => u.header

def describe : Record → Text
  | .switch s => s.describe
  | .user u => u.describe

end Record
end TraceReport
