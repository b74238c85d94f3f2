import TraceReport.Text.Basic

namespace TraceReport

/-- A path as it was given: names between slashes. -/
abbrev Path := Text

namespace Path

def dot : Text := ['.']

def dotDot : Text := ['.', '.']

def isAbsolute (p : Path) : Bool := p.head? == some '/'

def endsInSlash (p : Path) : Bool := p.getLast? == some '/'

/-- The names of a path; repeated slashes count as one. -/
def names (p : Path) : List Text := (Text.splitAt '/' p).filter fun name => !name.isEmpty

/-- The leading slash or dot, which no parent drops. -/
def anchor (p : Path) : Text :=
  match p with
  | '/' :: _ => ['/']
  | ['.'] => dot
  | '.' :: '/' :: _ => dot
  | _ => []

/-- Names that lead nowhere. -/
def isIdle (name : Text) : Bool := name.isEmpty || name == dot

/-- The path without its last name, and without the idle names around that; the root and the empty
path have no parent. -/
def parent? (p : Path) : Option Path :=
  let anchor := p.anchor
  match (Text.splitAt '/' (p.drop anchor.length)).reverse.dropWhile isIdle with
  | [] => if anchor = dot then some [] else none
  | _ :: rest => some (anchor ++ Text.joinWith ['/'] (rest.dropWhile isIdle).reverse)

def join (dir : Path) (name : Text) : Path :=
  if dir.isEmpty || dir.endsInSlash then dir ++ name else dir ++ '/' :: name

end Path
end TraceReport
