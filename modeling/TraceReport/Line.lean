import TraceReport.Text.Basic

namespace TraceReport

/-- The three forms of trace record. -/
inductive Dialect
  | kernel
  | plain
  | structured
  deriving DecidableEq, Repr

def Dialect.label : Dialect → String
  | .kernel => "kernel"
  | .plain => "user"
  | .structured => "structured user"

namespace Line

def isLineEnd (c : Char) : Bool := c == '\n' || c == '\r'

/-- Drops the line end and the one space that pads a timestamp after its bracket. -/
def body (raw : Text) : Text :=
  match Text.dropEndWhile isLineEnd raw with
  | c :: ' ' :: rest => if c.toNat < 0x80 then c :: rest else c :: ' ' :: rest
  | t => t

/-- Tabs part a line; its first part falls into words, the others stay whole. -/
def tokens (line : Text) : List Text :=
  match (Text.splitAt '\t' line).filter (fun part => !part.isEmpty) with
  | [] => []
  | first :: rest => Text.words first ++ rest

def isBlank (line : Text) : Bool := line.all Text.isBlank

/-- Records the tracer writes about loaded binaries. -/
def describesBinary (line : Text) : Bool :=
  ["bin_info", "build_id", "debug_link"].any fun mark => line.mentions mark.toList

def switchName : Text := "sched_switch".toList

def userDialect (line : Text) : Dialect :=
  if ["pmtrace", "cat", "payload"].all fun mark => line.mentions mark.toList then .structured
  else .plain

/-- The dialect by what the line mentions anywhere. -/
def apparentDialect (line : Text) : Dialect :=
  if line.mentions switchName then .kernel else userDialect line

/-- The trimmed parts between colons that are not empty. -/
def colonParts (token : Text) : List Text :=
  ((Text.splitAt ':' token).map Text.trim).filter (fun part => !part.isEmpty)

def providerIndex : Nat := 3

/-- Whether the provider token itself names a scheduler switch. -/
def namesSwitch (tokens : List Text) : Bool :=
  match tokens[providerIndex]? with
  | some token => (colonParts token).head? == some switchName
  | none => false

/-- A line that only mentions a scheduler switch is read as a user record. -/
def dialect (line : Text) (tokens : List Text) : Dialect :=
  if line.mentions switchName && namesSwitch tokens then .kernel else userDialect line

/-- Whether a line mentions a scheduler switch without being one. -/
def isRerouted (line : Text) (tokens : List Text) : Bool :=
  line.mentions switchName && !namesSwitch tokens

end Line
end TraceReport
