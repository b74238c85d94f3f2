import TraceReport.CommandLine.Arguments
import TraceReport.Host
import TraceReport.Session

namespace TraceReport

/-- Why a run ended without a report. -/
inductive ProgramFault
  | paths (fault : PathFault)
  | settings (fault : SettingsFault)
  | unreadableCores (cause : FileFault)
  | badCores (cause : CoreListFault)
  | conversion (input : Path) (fault : ConversionFault)

namespace ProgramFault

def coresContext : String := "Cannot determine the CPU core count, pass --cores"

/-- The messages from the outermost to the innermost cause. A fault that quotes its cause is still
followed by it. -/
def messages : ProgramFault → List String
  | .paths fault => [fault.message]
  | .settings fault => fault.message :: fault.cause?.toList
  | .unreadableCores cause =>
    [coresContext, "Failed to read /sys/devices/system/cpu/possible", cause.message]
  | .badCores cause => [coresContext, cause.message]
  | .conversion input fault =>
    [s!"Failed to convert {String.ofList input}", fault.message] ++ fault.cause?.toList

/-- Faults of the options are faults of usage. -/
def exitCode : ProgramFault → Nat
  | .conversion _ .noView | .conversion _ (.badPeriod _) => 2
  | _ => 1

end ProgramFault

/-- What the program answers. -/
inductive Reply
  | halted (halt : Halt)
  | failed (fault : ProgramFault)
  | saved (output : Path)

namespace Program

def coresFile : Path := "/sys/devices/system/cpu/possible".toList

def statisticsFile : Path := "/proc/stat".toList

/-- The number of cores the system lists, at least one. -/
def coreCount (tree : FileTree) : Except ProgramFault Nat :=
  match tree.readText coresFile with
  | .error cause => .error (.unreadableCores cause)
  | .ok text =>
    match Host.cores text with
    | .error cause => .error (.badCores cause)
    | .ok cores => .ok (max cores.length 1)

/-- Boot time only fits a log of this system, which is the default one. -/
def bootTime? (arguments : Arguments) (tree : FileTree) : Option Nat :=
  match arguments.input with
  | some _ => none
  | none => (tree.readText statisticsFile).toOption.bind Host.bootTime?

def session (arguments : Arguments) (boot : Option Nat) (cores : Nat) : Session where
  input := arguments.input.getD Arguments.defaultInput
  output := arguments.output.getD Arguments.defaultOutput
  dumpDirectory := arguments.dumpDirectory
  options := {
    boot, cores
    views := arguments.views.map .ofList
    processes := arguments.processes
    periodMillis := arguments.period.getD Options.defaultPeriodMillis
    keep := arguments.debug }

/-- Everything that comes before the conversion: paths, settings, cores. -/
def prepare (arguments : Arguments) (tree : FileTree) :
    Except ProgramFault (Session × Settings) := do
  let settingsPath := arguments.settings.getD Arguments.defaultSettings
  let draft := session arguments (bootTime? arguments tree) 1
  (tree.requirePaths settingsPath draft.input draft.output).mapError .paths
  match arguments.dumpDirectory with
  | some dir => (tree.requireDumpDirectory dir).mapError .paths
  | none => pure ()
  let settings ← (Settings.load tree settingsPath).mapError .settings
  let cores ← match arguments.cores with
    | some n => .ok n
    | none => coreCount tree
  return ({ draft with options := { draft.options with cores } }, settings)

def run (arguments : Arguments) (tree : FileTree) : FileTree × Reply :=
  match prepare arguments tree with
  | .error fault => (tree, .failed fault)
  | .ok (session, settings) =>
    match session.run settings tree with
    | (tree, .error fault) => (tree, .failed (.conversion session.input fault))
    | (tree, .ok _) => (tree, .saved session.output)

/-- The whole program: its words and the files there are, to the files after it and its answer. -/
def answer (words : List Text) (tree : FileTree) : FileTree × Reply :=
  match Arguments.read words with
  | .error halt => (tree, .halted halt)
  | .ok arguments => run arguments tree

end Program

namespace Reply

def exitCode : Reply → Nat
  | .halted (.usage _) => 2
  | .halted _ | .saved _ => 0
  | .failed fault => fault.exitCode

def versionText : String := "session-report 0.1.0\n"

def helpText : String :=
  "Convert an LTTng text trace into a Chrome trace JSON report\n\n" ++
  "Usage: session-report [OPTIONS]\n\n" ++
  "Options:\n" ++
  "  -c, --config <FILE>    Configuration file\n" ++
  "  -i, --input <FILE>     LTTng text log\n" ++
  "  -o, --output <FILE>    Report file to write\n" ++
  "  -e, --enable <VIEWS>   Views to render: user, group, cpu\n" ++
  "  -p, --process <NAMES>  Only emit events of these processes\n" ++
  "  -m, --measure <MS>     CPU usage window in milliseconds (1-1000)\n" ++
  "  -d, --debug            Keep parsed records and write debug dumps\n" ++
  "      --cores <N>        Number of CPU cores\n" ++
  "      --dump-dir <DIR>   Directory for debug dumps\n" ++
  "  -h, --help             Print help\n" ++
  "  -V, --version          Print version\n"

def standardOutput : Reply → String
  | .halted .help => helpText
  | .halted .version => versionText
  | .saved output => s!"saved: {String.ofList output}\n"
  | _ => ""

def errorOutput : Reply → String
  | .halted (.usage fault) => s!"error: {fault.message}\n"
  | .failed fault => "error: " ++ ": ".intercalate fault.messages ++ "\n"
  | _ => ""

end Reply
end TraceReport
