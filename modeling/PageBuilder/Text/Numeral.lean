import PageBuilder.Double.Decimal
import PageBuilder.Text.Blank
import PageBuilder.Text.Digit

/-!
Numerals written by hand: blanks around, a sign, decimal digits of any script, and single
underscores between digits.
-/

namespace PageBuilder.Text.Numeral

def isPadding (c : Char) : Bool := isBlank c && !isSeparator c

/-- The text without its padding, with ASCII digits for those of other scripts. -/
def plain (s : List Char) : List Char :=
  (trimBoth isPadding s).map fun c =>
    match decimalDigit? c with
    | some n => Nat.digitChar n
    | none => c

/-- Drops the underscores; none if one of them does not stand between digits. -/
def dropUnderscores (afterDigit : Bool) : List Char → Option (List Char)
  | [] => some []
  | '_' :: c :: rest =>
    if afterDigit && c.isDigit then (dropUnderscores true rest).map (c :: ·) else none
  | c :: rest =>
    if c = '_' then none else (dropUnderscores c.isDigit rest).map (c :: ·)

/-- Whether a minus sign stands in front, and what follows the sign. -/
def splitSign : List Char → Bool × List Char
  | '-' :: rest => (true, rest)
  | '+' :: rest => (false, rest)
  | s => (false, s)

/-! ## Integers -/

def digits? (s : List Char) : Option Nat :=
  if s.isEmpty || !s.all Char.isDigit then none else some (Nat.ofDigitChars 10 s 0)

def integer? (s : List Char) : Option Int := do
  let (negative, rest) := splitSign (← dropUnderscores false (plain s))
  let n ← digits? rest
  return if negative then -n else n

/-! ## Numbers -/

/-- The exponent that follows the digits; zero where nothing does. -/
def exponent? : List Char → Option Int
  | [] => some 0
  | c :: rest =>
    if c = 'e' || c = 'E' then
      let (negative, rest) := splitSign rest
      (digits? rest).map fun n => if negative then -(n : Int) else n
    else none

def fraction (s : List Char) : List Char × List Char :=
  match s with
  | '.' :: rest => (rest.takeWhile Char.isDigit, rest.dropWhile Char.isDigit)
  | _ => ([], s)

def decimal? (s : List Char) : Option Decimal := do
  let whole := s.takeWhile Char.isDigit
  let (part, rest) := fraction (s.dropWhile Char.isDigit)
  let digits ← digits? (whole ++ part)
  let e ← exponent? rest
  return ⟨digits, e - part.length⟩

def double? (s : List Char) : Option Double := do
  let (negative, rest) := splitSign (← dropUnderscores false (plain s))
  let word := String.ofList (rest.map Char.toLower)
  if word = "nan" then return .nan
  else if word = "inf" || word = "infinity" then return .infinity negative
  else return .ofDecimal negative (← decimal? rest)

end PageBuilder.Text.Numeral
