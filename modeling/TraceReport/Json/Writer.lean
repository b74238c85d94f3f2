import TraceReport.Decimal.Style
import TraceReport.Json.Basic

namespace TraceReport.Json

def hexPair (n : Nat) : Text := [Nat.digitChar (n / 16), Nat.digitChar (n % 16)]

def escapeChar (c : Char) : Text :=
  if c = '"' then "\\\"".toList
  else if c = '\\' then "\\\\".toList
  else if c = '\x08' then "\\b".toList
  else if c = '\x0c' then "\\f".toList
  else if c = '\n' then "\\n".toList
  else if c = '\r' then "\\r".toList
  else if c = '\t' then "\\t".toList
  else if c.toNat < 0x20 then "\\u00".toList ++ hexPair c.toNat
  else [c]

def stringText (t : Text) : Text := '"' :: t.flatMap escapeChar ++ ['"']

/-- A double that is no number is written as null. -/
def realText (x : Binary64) : Text := (Decimal.Style.report.text? x).getD "null".toList

mutual

/-- The compact text of a value, without space between its parts. -/
def text : Json → Text
  | .null => "null".toList
  | .bool true => "true".toList
  | .bool false => "false".toList
  | .int n => Numeral.signed n
  | .real x => realText x
  | .string s => stringText s
  | .array items => '[' :: itemsText items ++ [']']
  | .object members => '\x7b' :: membersText members ++ ['\x7d']

def itemsText : List Json → Text
  | [] => []
  | [item] => text item
  | item :: rest => text item ++ ',' :: itemsText rest

def membersText : List (Text × Json) → Text
  | [] => []
  | [(key, value)] => stringText key ++ ':' :: text value
  | (key, value) :: rest => stringText key ++ ':' :: text value ++ ',' :: membersText rest

end

end TraceReport.Json
