namespace TraceReport

/-- Text is its list of characters; every rule on it reads from the left. -/
abbrev Text := List Char

namespace Text

/-- The characters of the Unicode property White_Space. -/
def isBlank (c : Char) : Bool :=
  let n := c.toNat
  (9 ≤ n && n ≤ 13) || n == 0x20 || n == 0x85 || n == 0xA0 || n == 0x1680 ||
    (0x2000 ≤ n && n ≤ 0x200A) || n == 0x2028 || n == 0x2029 || n == 0x202F ||
    n == 0x205F || n == 0x3000

def dropEndWhile (p : Char → Bool) (t : Text) : Text := (t.reverse.dropWhile p).reverse

def trimStart (t : Text) : Text := t.dropWhile isBlank

def trimEnd (t : Text) : Text := dropEndWhile isBlank t

def trim (t : Text) : Text := trimEnd (trimStart t)

/-- All stretches between the characters that satisfy `p`, empty ones included. -/
def splitWhen (p : Char → Bool) (t : Text) : List Text :=
  t.foldr (fun c parts =>
    if p c then [] :: parts
    else match parts with
      | [] => [[c]]
      | w :: ws => (c :: w) :: ws) [[]]

def splitAt (mark : Char) (t : Text) : List Text := splitWhen (· == mark) t

def words (t : Text) : List Text := (splitWhen isBlank t).filter (fun w => !w.isEmpty)

/-- The parts before and after the first `mark`. -/
def cut? (mark : Char) : Text → Option (Text × Text)
  | [] => none
  | c :: rest =>
    if c = mark then some ([], rest)
    else (cut? mark rest).map fun (before, after) => (c :: before, after)

/-- Whether `sought` stands anywhere in the text. -/
def mentions : (t sought : Text) → Bool
  | [], sought => sought.isEmpty
  | c :: rest, sought => sought.isPrefixOf (c :: rest) || mentions rest sought

def joinWith (sep : Text) (parts : List Text) : Text := sep.intercalate parts

/-- Removes one double quote from each end, only when both are there. -/
def unquote : Text → Text
  | '"' :: rest => if rest.getLast? = some '"' then rest.dropLast else '"' :: rest
  | t => t

end Text
end TraceReport
