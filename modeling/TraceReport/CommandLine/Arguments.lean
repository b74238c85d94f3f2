import TraceReport.Files.Path
import TraceReport.Numeral
import TraceReport.Options

namespace TraceReport

/-- Why the command line was not carried out. -/
inductive UsageFault
  | unknownArgument
  | missingValue
  | badView
  | badNumber
  | repeated
  | unexpectedValue
  | missingDebug
  deriving DecidableEq, Repr

def UsageFault.message : UsageFault → String
  | .unknownArgument => "unexpected argument"
  | .missingValue => "a value is required"
  | .badView => "views are user, group and cpu"
  | .badNumber => "not a number in range"
  | .repeated => "an argument was given twice"
  | .unexpectedValue => "a flag takes no value"
  | .missingDebug => "--dump-dir requires --debug"

/-- What the command line asks for in place of a run. -/
inductive Halt
  | help
  | version
  | usage (fault : UsageFault)
  deriving DecidableEq, Repr

/-- Arguments as given; lists collect over repeated use. -/
structure Arguments where
  settings : Option Path
  input : Option Path
  output : Option Path
  views : Option (List View)
  processes : Option (List Text)
  period : Option Nat
  debug : Bool
  cores : Option Nat
  dumpDirectory : Option Path
  deriving DecidableEq, Repr

namespace Arguments

def none : Arguments :=
  ⟨.none, .none, .none, .none, .none, .none, false, .none, .none⟩

def defaultSettings : Path := "/etc/pmtrace/session-report-conf.json".toList

def defaultInput : Path := "/tmp/pmtrace/lttng.txt".toList

def defaultOutput : Path := "/tmp/session-report-result.json".toList

inductive Key
  | settings
  | input
  | output
  | views
  | processes
  | period
  | debug
  | cores
  | dumpDirectory
  | help
  | version
  deriving DecidableEq, Repr

def Key.takesValue : Key → Bool
  | .debug | .help | .version => false
  | _ => true

def Key.ofLetter? : Char → Option Key
  | 'c' => some .settings
  | 'i' => some .input
  | 'o' => some .output
  | 'e' => some .views
  | 'p' => some .processes
  | 'm' => some .period
  | 'd' => some .debug
  | 'h' => some .help
  | 'V' => some .version
  | _ => Option.none

def Key.word : Key → String
  | .settings => "config"
  | .input => "input"
  | .output => "output"
  | .views => "enable"
  | .processes => "process"
  | .period => "measure"
  | .debug => "debug"
  | .cores => "cores"
  | .dumpDirectory => "dump-dir"
  | .help => "help"
  | .version => "version"

def Key.all : List Key :=
  [.settings, .input, .output, .views, .processes, .period, .debug, .cores, .dumpDirectory,
    .help, .version]

def Key.ofWord? (word : Text) : Option Key := all.find? fun key => key.word.toList == word

def view? (name : Text) : Option View :=
  if name = "user".toList then some .user
  else if name = "group".toList then some .group
  else if name = "cpu".toList then some .cpu
  else Option.none

def path (value : Text) : Except Halt Path :=
  if value.isEmpty then .error (.usage .missingValue) else .ok value

def viewList (value : Text) : Except Halt (List View) :=
  match (Text.splitAt ',' value).mapM view? with
  | some list => .ok list
  | Option.none => .error (.usage .badView)

def number (limit : Nat) (value : Text) : Except Halt Nat :=
  match Numeral.natural? limit value with
  | some n => if n = 0 then .error (.usage .badNumber) else .ok n
  | Option.none => .error (.usage .badNumber)

def greatestCores : Nat := 65535

/-- An argument that may be given only once; that comes before its value is looked at. -/
def once {α : Type} (given : Option α) (value : Except Halt α) : Except Halt (Option α) :=
  match given with
  | some _ => .error (.usage .repeated)
  | Option.none => value.map some

def take (a : Arguments) (key : Key) (value : Text) : Except Halt Arguments :=
  match key with
  | .settings => (once a.settings (path value)).map fun v => { a with settings := v }
  | .input => (once a.input (path value)).map fun v => { a with input := v }
  | .output => (once a.output (path value)).map fun v => { a with output := v }
  | .dumpDirectory =>
    (once a.dumpDirectory (path value)).map fun v => { a with dumpDirectory := v }
  | .period =>
    (once a.period (number Options.greatestPeriodMillis value)).map fun v => { a with period := v }
  | .cores => (once a.cores (number greatestCores value)).map fun v => { a with cores := v }
  | .views => (viewList value).map fun v => { a with views := some (a.views.getD [] ++ v) }
  | .processes =>
    .ok { a with processes := some (a.processes.getD [] ++ Text.splitAt ',' value) }
  | .debug | .help | .version => .error (.usage .unexpectedValue)

def flag (a : Arguments) (key : Key) : Except Halt Arguments :=
  match key with
  | .help => .error .help
  | .version => .error .version
  | .debug => if a.debug then .error (.usage .repeated) else .ok { a with debug := true }
  | _ => .error (.usage .missingValue)

/-- Arguments on the way: the last option with the value that stood apart from it, if that has
come. It is taken in when the next option is seen. -/
structure Reading where
  given : Arguments
  pending : Option (Key × Option Text)

namespace Reading

def settle (r : Reading) : Except Halt Arguments :=
  match r.pending with
  | Option.none => .ok r.given
  | some (_, Option.none) => .error (.usage .missingValue)
  | some (key, some value) => r.given.take key value

def taking (r : Reading) (key : Key) (value : Text) : Except Halt Reading := do
  let given ← (← r.settle).take key value
  return ⟨given, Option.none⟩

def flagging (r : Reading) (key : Key) : Except Halt Reading := do
  let given ← (← r.settle).flag key
  return ⟨given, Option.none⟩

def awaiting (r : Reading) (key : Key) : Except Halt Reading := do
  return ⟨← r.settle, some (key, Option.none)⟩

/-- A word after two dashes, with its value after an equals sign. -/
def long (r : Reading) (text : Text) : Except Halt Reading :=
  let word := text.takeWhile (· != '=')
  let value := (text.drop word.length).tail?
  match Key.ofWord? word with
  | Option.none => .error (.usage .unknownArgument)
  | some key =>
    match key.takesValue, value with
    | true, some value => r.taking key value
    | true, Option.none => r.awaiting key
    | false, some _ => .error (.usage .unexpectedValue)
    | false, Option.none => r.flagging key

/-- Letters after one dash: flags, and at most one option, whose value is what follows it. -/
def short (r : Reading) : Text → Except Halt Reading
  | [] => .ok r
  | letter :: rest =>
    match Key.ofLetter? letter with
    | Option.none => .error (.usage .unknownArgument)
    | some key =>
      if key.takesValue then
        match rest with
        | [] => r.awaiting key
        | '=' :: value => r.taking key value
        | value => r.taking key value
      else do
        let r ← r.flagging key
        r.short rest

/-- A word without dashes is the value of the option before it. -/
def word (r : Reading) (text : Text) : Except Halt Reading :=
  match r.pending with
  | some (key, Option.none) => .ok { r with pending := some (key, some text) }
  | _ => .error (.usage .unknownArgument)

def finish (r : Reading) : Except Halt Arguments := do
  let given ← r.settle
  if given.dumpDirectory.isSome && !given.debug then .error (.usage .missingDebug)
  else .ok given

/-- After a lone double dash nothing may follow. -/
def all (r : Reading) : List Text → Except Halt Arguments
  | [] => r.finish
  | text :: rest =>
    match text with
    | ['-', '-'] => if rest.isEmpty then r.finish else .error (.usage .unknownArgument)
    | '-' :: '-' :: text => do
      let r ← r.long text
      r.all rest
    | '-' :: letter :: letters => do
      let r ← r.short (letter :: letters)
      r.all rest
    | text => do
      let r ← r.word text
      r.all rest

end Reading

/-- Reads the words after the program's name. The first fault in their order wins. -/
def read (words : List Text) : Except Halt Arguments :=
  Reading.all ⟨none, Option.none⟩ words

end Arguments
end TraceReport
