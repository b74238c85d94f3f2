import TraceReport.Json.Writer
import TraceReport.Text.Quoted

namespace TraceReport

/-- Where a JSON value does not have the shape that is read from it. -/
inductive Mismatch
  | wrongType (found : Json) (expected : String)
  | missing (key : String)
  | tooShort (length : Nat) (shape : String) (size : Nat)
  | tooLong (length : Nat)

namespace Mismatch

def ticked (word : String) : String := "\x60" ++ word ++ "\x60"

/-- A value as messages name it. -/
def named : Json → String
  | .null => "null"
  | .bool b => s!"boolean {ticked (toString b)}"
  | .int n => s!"integer {ticked (String.ofList (Numeral.signed n))}"
  | .real x => s!"floating point {ticked (String.ofList (Json.realText x))}"
  | .string s => "string " ++ String.ofList (Text.quoted s)
  | .array _ => "sequence"
  | .object _ => "map"

def message : Mismatch → String
  | .wrongType found expected => s!"invalid type: {named found}, expected {expected}"
  | .missing key => s!"missing field {ticked key}"
  | .tooShort length shape size =>
    s!"invalid length {length}, expected struct {shape} with {size} " ++
      (if size = 1 then "element" else "elements")
  | .tooLong length => s!"invalid length {length}, expected fewer elements in array"

end Mismatch

namespace Shape

abbrev Reader (α : Type) := Json → Except Mismatch α

def bool : Reader Bool
  | .bool b => .ok b
  | other => .error (.wrongType other "a boolean")

def text : Reader Text
  | .string s => .ok s
  | other => .error (.wrongType other "a string")

/-- Null stands for no value. -/
def optional {α : Type} (read : Reader α) : Reader (Option α)
  | .null => .ok none
  | other => (read other).map some

def list {α : Type} (read : Reader α) : Reader (List α)
  | .array items => items.mapM read
  | other => .error (.wrongType other "a sequence")

def required {α : Type} (key : String) : Option α → Except Mismatch α
  | some value => .ok value
  | none => .error (.missing key)

/-- How a record is read: each field fills in its place of a part-filled record, which `whole`
then checks for places left open. -/
structure Fields (π α : Type) where
  name : String
  fields : List (String × (Json → π → Except Mismatch π))
  blank : π
  whole : π → Except Mismatch α

/-- From an object the members are read in its order, unknown ones skipped; from an array the
items are the fields in order, and it must have as many. -/
def Fields.read {π α : Type} (shape : Fields π α) : Reader α
  | .object members => do
    let parts ← members.foldlM (fun parts (key, value) =>
      match shape.fields.find? fun field => field.1.toList == key with
      | some field => field.2 value parts
      | none => .ok parts) shape.blank
    shape.whole parts
  | .array items => do
    let parts ← (shape.fields.zip items).foldlM
      (fun parts (field, value) => field.2 value parts) shape.blank
    if items.length < shape.fields.length then
      .error (.tooShort items.length shape.name shape.fields.length)
    else if shape.fields.length < items.length then .error (.tooLong items.length)
    else shape.whole parts
  | other => .error (.wrongType other ("struct " ++ shape.name))

/-- A field that a reader fills in. -/
def field {π α : Type} (key : String) (read : Reader α) (fill : α → π → π) :
    String × (Json → π → Except Mismatch π) :=
  (key, fun value parts => (read value).map fun a => fill a parts)

end Shape
end TraceReport
