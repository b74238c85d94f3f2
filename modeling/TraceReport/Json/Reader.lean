import TraceReport.Json.Number

namespace TraceReport.Json

def isSpace (c : Char) : Bool := c == ' ' || c == '\t' || c == '\n' || c == '\r'

def skipSpace (t : Text) : Text := t.dropWhile isSpace

def hexValue? (c : Char) : Option Nat :=
  if c.isDigit then some (c.toNat - '0'.toNat)
  else if 'a' ≤ c && c ≤ 'f' then some (c.toNat - 'a'.toNat + 10)
  else if 'A' ≤ c && c ≤ 'F' then some (c.toNat - 'A'.toNat + 10)
  else none

/-- What a string may go on with. `high` is the first half of a surrogate pair. -/
inductive Expect
  | character
  | escape
  | hex (high : Option Nat) (left value : Nat)
  | backslash (high : Nat)
  | unicode (high : Nat)

def escaped? (c : Char) : Option Char :=
  match c with
  | '"' => some '"'
  | '\\' => some '\\'
  | '/' => some '/'
  | 'b' => some '\x08'
  | 'f' => some '\x0c'
  | 'n' => some '\n'
  | 'r' => some '\r'
  | 't' => some '\t'
  | _ => none

def isHighSurrogate (n : Nat) : Bool := 0xD800 ≤ n && n ≤ 0xDBFF

def isLowSurrogate (n : Nat) : Bool := 0xDC00 ≤ n && n ≤ 0xDFFF

/-- What four hexadecimal digits complete: a character, or the first half of a pair. Halves
without a partner are refused. -/
def unit? (high : Option Nat) (n : Nat) : Option (Expect × Option Char) :=
  match high with
  | none =>
    if isHighSurrogate n then some (.backslash n, none)
    else if isLowSurrogate n then none
    else some (.character, some (Char.ofNat n))
  | some h =>
    if isLowSurrogate n then
      some (.character, some (Char.ofNat (0x10000 + 0x400 * (h - 0xD800) + (n - 0xDC00))))
    else none

/-- Reads on to the closing quote; `done` holds the characters so far, last first. -/
def string? (expect : Expect) (done : Text) : Text → Option (Text × Text)
  | [] => none
  | c :: rest =>
    match expect with
    | .character =>
      if c = '"' then some (done.reverse, rest)
      else if c = '\\' then string? .escape done rest
      else if c.toNat < 0x20 then none
      else string? .character (c :: done) rest
    | .escape =>
      if c = 'u' then string? (.hex none 4 0) done rest
      else match escaped? c with
        | some e => string? .character (e :: done) rest
        | none => none
    | .hex high left value =>
      match hexValue? c with
      | none => none
      | some digit =>
        if left ≤ 1 then
          match unit? high (16 * value + digit) with
          | none => none
          | some (next, found) => string? next (found.toList ++ done) rest
        else string? (.hex high (left - 1) (16 * value + digit)) done rest
    | .backslash high => if c = '\\' then string? (.unicode high) done rest else none
    | .unicode high => if c = 'u' then string? (.hex (some high) 4 0) done rest else none

def scalar? (t : Text) : Option (Json × Text) :=
  match t with
  | 't' :: 'r' :: 'u' :: 'e' :: rest => some (.bool true, rest)
  | 'f' :: 'a' :: 'l' :: 's' :: 'e' :: rest => some (.bool false, rest)
  | 'n' :: 'u' :: 'l' :: 'l' :: rest => some (.null, rest)
  | t => number? t

mutual

/-- Reads one value. `fuel` bounds the steps and `depth` the arrays and objects it may open. -/
def value? : (fuel depth : Nat) → Text → Option (Json × Text)
  | 0, _, _ => none
  | fuel + 1, depth, t =>
    match skipSpace t with
    | '"' :: rest => (string? .character [] rest).map fun (s, rest) => (.string s, rest)
    | '[' :: rest =>
      if depth = 0 then none
      else match skipSpace rest with
        | ']' :: rest => some (.array [], rest)
        | rest => items? fuel (depth - 1) [] rest
    | '{' :: rest =>
      if depth = 0 then none
      else match skipSpace rest with
        | '}' :: rest => some (.object [], rest)
        | rest => members? fuel (depth - 1) [] rest
    | t => scalar? t

def items? : (fuel depth : Nat) → List Json → Text → Option (Json × Text)
  | 0, _, _, _ => none
  | fuel + 1, depth, done, t =>
    match value? fuel depth t with
    | none => none
    | some (item, rest) =>
      match skipSpace rest with
      | ',' :: rest => items? fuel depth (item :: done) rest
      | ']' :: rest => some (.array (item :: done).reverse, rest)
      | _ => none

/-- A repeated key keeps its last value, and the keys come out in ascending order. -/
def members? : (fuel depth : Nat) → Table Text Json → Text → Option (Json × Text)
  | 0, _, _, _ => none
  | fuel + 1, depth, done, t =>
    match skipSpace t with
    | '"' :: rest =>
      match string? .character [] rest with
      | none => none
      | some (key, rest) =>
        match skipSpace rest with
        | ':' :: rest =>
          match value? fuel depth rest with
          | none => none
          | some (value, rest) =>
            match skipSpace rest with
            | ',' :: rest => members? fuel depth (done.insert key value) rest
            | '}' :: rest => some (.object (done.insert key value), rest)
            | _ => none
        | _ => none
    | _ => none

end

def greatestDepth : Nat := 127

/-- Every step but one in two takes a character. -/
def fuelFor (t : Text) : Nat := 2 * t.length + 2

/-- Reads a whole text as one value with nothing but space around it. -/
def read? (t : Text) : Option Json :=
  match value? (fuelFor t) greatestDepth t with
  | some (value, rest) => if (skipSpace rest).isEmpty then some value else none
  | none => none

end TraceReport.Json
