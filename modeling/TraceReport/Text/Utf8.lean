import TraceReport.Text.Basic

namespace TraceReport

abbrev Bytes := List UInt8

namespace Utf8

def encode (t : Text) : Bytes := t.flatMap String.utf8EncodeChar

def size : Text → Nat
  | [] => 0
  | c :: rest => c.utf8Size + size rest

/-- The text from a byte offset on; an offset inside a character moves to the next one. -/
def dropBytes : Nat → Text → Text
  | 0, t => t
  | _, [] => []
  | n, c :: rest => dropBytes (n - c.utf8Size) rest

/-- A character in the making: its bits so far, the bytes still owed, and the range the next
byte must lie in. -/
structure Pending where
  bits : Nat
  owed : Nat
  low : UInt8
  high : UInt8
  deriving DecidableEq, Repr

def tailLow : UInt8 := 0x80

def tailHigh : UInt8 := 0xBF

/-- What a lead byte announces. The narrowed second ranges rule out overlong forms, surrogates
and values above U+10FFFF. -/
def lead? (b : UInt8) : Option Pending :=
  if 0xC2 ≤ b && b ≤ 0xDF then some ⟨b.toNat - 0xC0, 1, tailLow, tailHigh⟩
  else if b == 0xE0 then some ⟨0, 2, 0xA0, tailHigh⟩
  else if b == 0xED then some ⟨0xD, 2, tailLow, 0x9F⟩
  else if 0xE1 ≤ b && b ≤ 0xEF then some ⟨b.toNat - 0xE0, 2, tailLow, tailHigh⟩
  else if b == 0xF0 then some ⟨0, 3, 0x90, tailHigh⟩
  else if 0xF1 ≤ b && b ≤ 0xF3 then some ⟨b.toNat - 0xF0, 3, tailLow, tailHigh⟩
  else if b == 0xF4 then some ⟨4, 3, tailLow, 0x8F⟩
  else none

/-- A byte between characters: what it yields, and what it leaves open. -/
def start (b : UInt8) : List (Option Char) × Option Pending :=
  if b < 0x80 then ([some (Char.ofNat b.toNat)], none)
  else match lead? b with
    | some p => ([], some p)
    | none => ([none], none)

def advance (p : Pending) (b : UInt8) : List (Option Char) × Option Pending :=
  if p.low ≤ b && b ≤ p.high then
    let bits := 64 * p.bits + (b.toNat - 0x80)
    if p.owed ≤ 1 then ([some (Char.ofNat bits)], none)
    else ([], some ⟨bits, p.owed - 1, tailLow, tailHigh⟩)
  else
    let (more, next) := start b
    (none :: more, next)

/-- The characters of a byte string, with `none` for each longest stretch that begins no
character. -/
def scan : Option Pending → Bytes → List (Option Char)
  | none, [] => []
  | some _, [] => [none]
  | none, b :: rest => (start b).1 ++ scan (start b).2 rest
  | some p, b :: rest => (advance p b).1 ++ scan (advance p b).2 rest

def replacement : Char := '\uFFFD'

def decodeLossy (bytes : Bytes) : Text := (scan none bytes).map (·.getD replacement)

/-- Refuses a byte string with any stretch that is no character. -/
def decode? (bytes : Bytes) : Option Text := (scan none bytes).mapM id

end Utf8
end TraceReport
