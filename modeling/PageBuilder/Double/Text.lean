import PageBuilder.Double.Decimal

/-!
The written form of binary64 numbers: shortest digits, always with a fraction or an exponent.
-/

namespace PageBuilder.Double

/-- Decimal exponents outside of these bounds are written out. -/
def positionalFrom : Int := -4
def positionalBelow : Int := 16

/-- A decimal digit string without the zeros at its end, which only its place needs. -/
def trimZeros (digits : List Char) : List Char :=
  (digits.reverse.dropWhile (· == '0')).reverse

/-- The digits of an exponent, of which there are two at least. -/
def exponentDigits (n : Nat) : List Char :=
  let digits := Nat.toDigits 10 n
  if digits.length < 2 then '0' :: digits else digits

def exponentText (e : Int) : List Char :=
  'e' :: (if e < 0 then '-' else '+') :: exponentDigits e.natAbs

/-- `digits` with the point after the first `point` of them. -/
def layout (digits : List Char) (point : Int) : List Char :=
  let e := point - 1
  if e < positionalFrom || positionalBelow ≤ e then
    match digits with
    | [] => ['0', '.', '0']
    | [d] => d :: exponentText e
    | d :: rest => d :: '.' :: (rest ++ exponentText e)
  else if point ≤ 0 then
    '0' :: '.' :: (List.replicate point.natAbs '0' ++ digits)
  else if digits.length ≤ point.natAbs then
    digits ++ List.replicate (point.natAbs - digits.length) '0' ++ ['.', '0']
  else
    digits.take point.natAbs ++ '.' :: digits.drop point.natAbs

def magnitudeText (rank : Nat) : List Char :=
  if rank = 0 then ['0', '.', '0']
  else
    let d := shortest rank
    let digits := Nat.toDigits 10 d.digits
    layout (trimZeros digits) (digits.length + d.exponent)

def signed (negative : Bool) (text : List Char) : List Char :=
  if negative then '-' :: text else text

/-- The words for the numbers that are not finite. -/
structure Words where
  nan : List Char
  infinity : List Char

def text (words : Words) : Double → List Char
  | nan => words.nan
  | infinity negative => signed negative words.infinity
  | finite negative rank => signed negative (magnitudeText rank)

def displayWords : Words := ⟨"nan".toList, "inf".toList⟩

end PageBuilder.Double
