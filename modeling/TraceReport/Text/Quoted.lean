import TraceReport.Text.Hidden

namespace TraceReport.Text

def quotedChar (c : Char) : Text :=
  if c = '"' then "\\\"".toList
  else if c = '\\' then "\\\\".toList
  else if c = '\t' then "\\t".toList
  else if c = '\r' then "\\r".toList
  else if c = '\n' then "\\n".toList
  else if c.toNat = 0 then "\\0".toList
  else if isHidden c then "\\u\x7b".toList ++ Nat.toDigits 16 c.toNat ++ "\x7d".toList
  else [c]

/-- Text as messages quote it: every character can be told apart on sight. -/
def quoted (t : Text) : Text := '"' :: t.flatMap quotedChar ++ ['"']

end TraceReport.Text
