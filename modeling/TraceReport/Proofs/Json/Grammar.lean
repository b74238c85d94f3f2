import TraceReport.Json.Reader
import TraceReport.Proofs.Json.Literal
import TraceReport.Proofs.Table

namespace TraceReport.Json

/-- Space as it may stand around values. -/
def Spaces (t : Text) : Prop := ∀ c ∈ t, isSpace c = true

/-- Four hexadecimal digits, and their number. -/
inductive Quad : Text → Nat → Prop
  | digits {a b c d : Char} {i j k l : Nat} (ha : hexValue? a = some i) (hb : hexValue? b = some j)
      (hc : hexValue? c = some k) (hd : hexValue? d = some l) :
      Quad [a, b, c, d] (16 * (16 * (16 * i + j) + k) + l)

/-- What stands between the quotes of a string, and the characters that it spells. -/
inductive Characters : Text → Text → Prop
  | nil : Characters [] []
  | plain {c : Char} {t s : Text} (hquote : c ≠ '"') (hslash : c ≠ '\\')
      (hcontrol : 0x20 ≤ c.toNat) (hrest : Characters t s) : Characters (c :: t) (c :: s)
  | escape {mark c : Char} {t s : Text} (hmark : escaped? mark = some c)
      (hrest : Characters t s) : Characters ('\\' :: mark :: t) (c :: s)
  | unit {quad t s : Text} {n : Nat} (hquad : Quad quad n) (hhigh : isHighSurrogate n = false)
      (hlow : isLowSurrogate n = false) (hrest : Characters t s) :
      Characters ('\\' :: 'u' :: quad ++ t) (Char.ofNat n :: s)
  /-- the two halves of a character beyond the first 65536 -/
  | pair {quad quad' t s : Text} {m n : Nat} (hquad : Quad quad m)
      (hhigh : isHighSurrogate m = true) (hquad' : Quad quad' n) (hlow : isLowSurrogate n = true)
      (hrest : Characters t s) :
      Characters ('\\' :: 'u' :: quad ++ '\\' :: 'u' :: quad' ++ t)
        (Char.ofNat (0x10000 + 0x400 * (m - 0xD800) + (n - 0xDC00)) :: s)

namespace Literal

variable (l : Literal)

/-- A literal without fraction and exponent that 64 bits hold, with or without a sign. The negative
zero is none. -/
structure IsInteger (n : Int) : Prop where
  part : l.part = none
  exponent : l.exponent = none
  value : l.value = n
  low : -2 ^ 63 ≤ n
  high : n < 2 ^ 64
  sign : l.negative = true → n ≠ 0

/-- The value of a literal: integers are exact, and all other numbers are doubles. -/
inductive Reads : Json → Prop
  | int {n : Int} (h : l.IsInteger n) : Reads (.int n)
  | real {x : Binary64} (h : ∀ n, ¬l.IsInteger n) (hx : real? l.whole l.part l.exponent = some x) :
      Reads (.real (if l.negative then x.neg else x))

end Literal

mutual

/-- A text and the value that it spells, with no more than `depth` arrays and objects open at a
time. -/
inductive Spells : (depth : Nat) → Text → Json → Prop
  | null {depth : Nat} : Spells depth "null".toList .null
  | bool {depth : Nat} (b : Bool) :
      Spells depth (if b then "true".toList else "false".toList) (.bool b)
  | number {depth : Nat} {t : Text} {l : Literal} {j : Json} (hvalid : l.Valid)
      (htext : l.Written t) (hj : l.Reads j) : Spells depth t j
  | string {depth : Nat} {t s : Text} (h : Characters t s) :
      Spells depth ('"' :: t ++ ['"']) (.string s)
  | emptyArray {depth : Nat} {spaces : Text} (h : Spaces spaces) :
      Spells (depth + 1) ('[' :: spaces ++ [']']) (.array [])
  | array {depth : Nat} {t : Text} {items : List Json} (h : Items depth t items) :
      Spells (depth + 1) ('[' :: t ++ [']']) (.array items)
  | emptyObject {depth : Nat} {spaces : Text} (h : Spaces spaces) :
      Spells (depth + 1) ('\x7b' :: spaces ++ ['\x7d']) (.object [])
  /-- the last of the members of one key counts, and they come in the order of their keys -/
  | object {depth : Nat} {t : Text} {members : List (Text × Json)} (h : Members depth t members) :
      Spells (depth + 1) ('\x7b' :: t ++ ['\x7d']) (.object (Table.ofPairs members))

/-- A value with the space around it. -/
inductive Element : (depth : Nat) → Text → Json → Prop
  | spaced {depth : Nat} {before t after : Text} {j : Json} (hbefore : Spaces before)
      (h : Spells depth t j) (hafter : Spaces after) : Element depth (before ++ t ++ after) j

inductive Items : (depth : Nat) → Text → List Json → Prop
  | last {depth : Nat} {t : Text} {j : Json} (h : Element depth t j) : Items depth t [j]
  | more {depth : Nat} {t rest : Text} {j : Json} {items : List Json} (h : Element depth t j)
      (hrest : Items depth rest items) : Items depth (t ++ ',' :: rest) (j :: items)

inductive Member : (depth : Nat) → Text → Text × Json → Prop
  | keyed {depth : Nat} {before t key after value : Text} {j : Json} (hbefore : Spaces before)
      (hkey : Characters t key) (hafter : Spaces after) (h : Element depth value j) :
      Member depth (before ++ '"' :: t ++ '"' :: after ++ ':' :: value) (key, j)

inductive Members : (depth : Nat) → Text → List (Text × Json) → Prop
  | last {depth : Nat} {t : Text} {member : Text × Json} (h : Member depth t member) :
      Members depth t [member]
  | more {depth : Nat} {t rest : Text} {member : Text × Json} {members : List (Text × Json)}
      (h : Member depth t member) (hrest : Members depth rest members) :
      Members depth (t ++ ',' :: rest) (member :: members)

end

/-- A whole text that spells a value. -/
def IsDocument (t : Text) (j : Json) : Prop := Element greatestDepth t j

end TraceReport.Json
