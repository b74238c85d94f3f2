import TraceReport.Record

namespace TraceReport

/-- Why a list of cores could not be read. -/
inductive CoreListFault
  | badRange (item : Text) (cause : Option Numeral.Fault)
  | badCore (item : Text) (cause : Numeral.Fault)
  deriving DecidableEq, Repr

def CoreListFault.message : CoreListFault → String
  | .badRange item cause =>
    s!"bad CPU range {String.ofList item}" ++ cause.elim "" fun c => ": " ++ c.message
  | .badCore item cause => s!"bad CPU id {String.ofList item}: {cause.message}"

namespace Host

def coreNumber (t : Text) : Except Numeral.Fault Core :=
  Numeral.natural Numeral.maxWord32 (Text.trim t)

def range (first last : Core) : List Core := List.range' first (last + 1 - first)

/-- One core, or all from a first to a last one. -/
def item (t : Text) : Except CoreListFault (List Core) :=
  match Text.cut? '-' t with
  | some (first, last) =>
    match coreNumber first, coreNumber last with
    | .error cause, _ => .error (.badRange t (some cause))
    | _, .error cause => .error (.badRange t (some cause))
    | .ok first, .ok last =>
      if last < first then .error (.badRange t none) else .ok (range first last)
  | none =>
    match coreNumber t with
    | .ok core => .ok [core]
    | .error cause => .error (.badCore t cause)

/-- The cores of a list such as `0-3,8-11`, in its order; empty items do not count. -/
def cores (t : Text) : Except CoreListFault (List Core) :=
  (((Text.splitAt ',' (Text.trim t)).filter fun part => !part.isEmpty).mapM item).map List.flatten

/-- The boot second in the statistics of the system: only its first such line counts. -/
def bootTime? (statistics : Text) : Option Nat :=
  ((Text.splitAt '\n' statistics).findSome? fun line => "btime".toList.isPrefixOf? line).bind
    fun rest => Numeral.natural? Numeral.maxWord64 (Text.trim rest)

end Host
end TraceReport
