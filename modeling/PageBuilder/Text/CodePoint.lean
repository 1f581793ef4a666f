/-!
Code points as characters. A high surrogate before a low one forms one character with it; any
other code point that is no character is replaced.
-/

namespace PageBuilder.Text

/-- Stands in a text for a code point that is no character. -/
def replacement : Char := '\uFFFD'

/-- The character of a code point. -/
def ofCodePoint (n : Nat) : Char :=
  if n.isValidChar then Char.ofNat n else replacement

def isHigh (n : Nat) : Bool := 0xd800 ≤ n && n ≤ 0xdbff

def isLow (n : Nat) : Bool := 0xdc00 ≤ n && n ≤ 0xdfff

def pairPoint (high low : Nat) : Nat := 0x10000 + (high - 0xd800) * 0x400 + (low - 0xdc00)

def joinPairs : List Nat → List Char
  | [] => []
  | [u] => [ofCodePoint u]
  | u :: v :: rest =>
    if isHigh u && isLow v then ofCodePoint (pairPoint u v) :: joinPairs rest
    else ofCodePoint u :: joinPairs (v :: rest)

end PageBuilder.Text
