namespace TraceReport

/-- A double: `mantissa · 2 ^ exponent` with a mantissa below `2 ^ 53` and an exponent from
-1074 on, or one of the values that are no number. -/
inductive Binary64
  | finite (negative : Bool) (mantissa : Nat) (exponent : Int)
  | infinite (negative : Bool)
  | nan
  deriving DecidableEq, Repr

namespace Binary64

/-- The leading bit of a full mantissa, 2^52. -/
def hiddenBit : Nat := 4503599627370496

def leastExponent : Int := -1074

def greatestExponent : Int := 971

/-- A non-negative rational, as numerator and denominator. -/
abbrev Ratio := Nat × Nat

/-- `a / b · 2 ^ e`. -/
def Ratio.shift (a b : Nat) (e : Int) : Ratio :=
  if 0 ≤ e then (a.shiftLeft e.toNat, b) else (a, b.shiftLeft (-e).toNat)

/-- The nearest integer to a quotient; halfway goes to the even neighbour. -/
def nearest (a b : Nat) : Nat :=
  let q := a / b
  let r := 2 * (a % b)
  if b < r || (r == b && q % 2 == 1) then q + 1 else q

/-- The exponent under which the quotient has a mantissa of 53 bits, or the least one. -/
def exponentFor (a b : Nat) : Int :=
  let guess : Int := (a.log2 : Int) - b.log2 - 52
  let scaled := Ratio.shift a b (-guess)
  let e := if scaled.1 < hiddenBit * scaled.2 then guess - 1 else guess
  max e leastExponent

/-- The double nearest to a quotient; halfway goes to the even mantissa, and what lies beyond
the greatest double becomes infinite. -/
def ofRatio (negative : Bool) (a b : Nat) : Binary64 :=
  if a = 0 then .finite negative 0 leastExponent
  else
    let e := exponentFor a b
    let scaled := Ratio.shift a b (-e)
    let m := nearest scaled.1 scaled.2
    let (m, e) := if m = 2 * hiddenBit then (hiddenBit, e + 1) else (m, e)
    if greatestExponent < e then .infinite negative else .finite negative m e

def ofNat (n : Nat) : Binary64 := ofRatio false n 1

def ratio (m : Nat) (e : Int) : Ratio := Ratio.shift m 1 e

def isZero : Binary64 → Bool
  | .finite _ m _ => m == 0
  | _ => false

def isFinite : Binary64 → Bool
  | .finite .. => true
  | _ => false

def neg : Binary64 → Binary64
  | .finite s m e => .finite (!s) m e
  | .infinite s => .infinite (!s)
  | .nan => .nan

def mul : Binary64 → Binary64 → Binary64
  | .finite s m e, .finite s' m' e' =>
    let scaled := ratio (m * m') (e + e')
    ofRatio (s != s') scaled.1 scaled.2
  | .nan, _ | _, .nan => .nan
  | .infinite s, .finite s' m _ | .finite s' m _, .infinite s =>
    if m = 0 then .nan else .infinite (s != s')
  | .infinite s, .infinite s' => .infinite (s != s')

def div : Binary64 → Binary64 → Binary64
  | .finite s m e, .finite s' m' e' =>
    if m' = 0 then (if m = 0 then .nan else .infinite (s != s'))
    else
      let scaled := Ratio.shift m m' (e - e')
      ofRatio (s != s') scaled.1 scaled.2
  | .nan, _ | _, .nan | .infinite _, .infinite _ => .nan
  | .infinite s, .finite s' _ _ => .infinite (s != s')
  | .finite s _ _, .infinite s' => .finite (s != s') 0 leastExponent

/-- The integer a double stands for, if it is one. -/
def integer? : Binary64 → Option Int
  | .finite s m e =>
    let scaled := ratio m e
    if scaled.1 % scaled.2 = 0 then
      let n : Int := (scaled.1 / scaled.2 : Nat)
      some (if s then -n else n)
    else none
  | _ => none

/-- The lesser of a finite double and a natural number. -/
def atMost (limit : Nat) : Binary64 → Binary64
  | .finite s m e =>
    let scaled := ratio m e
    if !s && limit * scaled.2 < scaled.1 then ofNat limit else .finite s m e
  | x => x

end Binary64
end TraceReport
