import PageBuilder.Text.Printable

/-!
Quoted text. The quote is single unless the text holds a single quote and no double one; the
quote, the backslash and every character that is not shown are escaped.
-/

namespace PageBuilder.Text

/-- `n` in hexadecimal with at least `width` digits. -/
def hex (width n : Nat) : List Char :=
  let digits := Nat.toDigits 16 n
  List.replicate (width - digits.length) '0' ++ digits

def quoteFor (s : List Char) : Char :=
  if s.contains '\'' && !s.contains '"' then '"' else '\''

/-- The escape for a character that is not shown, by the width of its number. -/
def numberEscape (c : Char) : List Char :=
  let n := c.toNat
  if n < 0x100 then '\\' :: 'x' :: hex 2 n
  else if n < 0x10000 then '\\' :: 'u' :: hex 4 n
  else '\\' :: 'U' :: hex 8 n

def quotedChar (quote c : Char) : List Char :=
  if c = quote || c = '\\' then ['\\', c]
  else if c = '\n' then ['\\', 'n']
  else if c = '\r' then ['\\', 'r']
  else if c = '\t' then ['\\', 't']
  else if isShown c then [c]
  else numberEscape c

def quoted (s : List Char) : List Char :=
  let quote := quoteFor s
  quote :: (s.flatMap (quotedChar quote) ++ [quote])

/-- Octets are quoted as the characters of their numbers, of which only ASCII is shown. -/
def quotedOctet (quote : Char) (b : UInt8) : List Char :=
  if 0x7f ≤ b then '\\' :: 'x' :: hex 2 b.toNat
  else quotedChar quote (Char.ofNat b.toNat)

def quotedOctets (octets : List UInt8) : List Char :=
  let quote := quoteFor (octets.map fun b => Char.ofNat b.toNat)
  'b' :: quote :: (octets.flatMap (quotedOctet quote) ++ [quote])

end PageBuilder.Text
