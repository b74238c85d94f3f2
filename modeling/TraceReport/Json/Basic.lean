import TraceReport.Decimal.Binary64
import TraceReport.Table
import TraceReport.Text.Basic

namespace TraceReport

/-- The members of an object stand in the order in which they are written. -/
inductive Json
  | null
  | bool (value : Bool)
  | int (value : Int)
  | real (value : Binary64)
  | string (value : Text)
  | array (items : List Json)
  | object (members : List (Text × Json))

end TraceReport
