import PageBuilder.Double.Basic

/-!
Decimals and binary64 numbers. A decimal is read as the nearest finite number, a tie going to the
even significand; a finite number is written with the fewest digits that read back, and of the
decimals with that many digits with the nearest one.
-/

namespace PageBuilder

/-- The number `digits * 10 ^ exponent`. -/
structure Decimal where
  digits : Nat
  exponent : Int
  deriving DecidableEq

namespace Double

/-! ## Reading -/

/-- The rank nearest to `num / den`. Ranks from `rankCount` on stand for overflow. -/
def nearestRank (num den : Nat) : Nat :=
  let halfUnits := num * Nat.pow 2 1075 / den
  let beyond := num * Nat.pow 2 1075 % den != 0
  let dropped := max 1 (halfUnits.log2 - 52)
  let kept := halfUnits / Nat.pow 2 dropped
  let rest := halfUnits % Nat.pow 2 dropped
  let half := Nat.pow 2 (dropped - 1)
  let up := half < rest || (rest == half && (beyond || kept % 2 == 1))
  (dropped - 1) * Nat.pow 2 52 + kept + if up then 1 else 0

/-- Exponents so large that no other rounding is possible are settled first. -/
def decimalRank : Decimal → Nat
  | ⟨0, _⟩ => 0
  | ⟨digits, .ofNat e⟩ => if 400 < e then rankCount else nearestRank (digits * Nat.pow 10 e) 1
  | ⟨digits, .negSucc e⟩ =>
    if 400 + digits.log2 < e then 0 else nearestRank digits (Nat.pow 10 (e + 1))

def ofRank (negative : Bool) (rank : Nat) : Double :=
  if h : rank < rankCount then finite negative ⟨rank, h⟩ else infinity negative

def ofDecimal (negative : Bool) (d : Decimal) : Double :=
  ofRank negative (decimalRank d)

/-! ## Writing -/

/-- How many decimal digits a natural number has. -/
def decimalLength (n : Nat) : Nat := (Nat.toDigits 10 n).length

/-- Below this power of ten no digit of a magnitude is looked for. -/
def places : Nat := 400

/-- All digits of a magnitude. -/
def exactDecimal (rank : Nat) : Decimal :=
  ⟨magnitude rank * Nat.pow 5 1074, -1074⟩

/-- The neighbours of `scaled / (one * 10 ^ places)` among the multiples of
`10 ^ (position - places)`, the nearer first, on a tie the even one. -/
def neighbours (scaled position : Nat) : List Decimal :=
  let unit := Nat.pow 10 position * one
  let below := scaled / unit
  let decimal (n : Nat) : Decimal := ⟨n, (position : Int) - places⟩
  let middle := (2 * below + 1) * unit
  if 2 * scaled < middle || (2 * scaled == middle && below % 2 == 0) then
    [decimal below, decimal (below + 1)]
  else
    [decimal (below + 1), decimal below]

/-- The shortest decimal that reads back as the rank. -/
def shortest (rank : Nat) : Decimal :=
  let scaled := magnitude rank * Nat.pow 10 places
  let top := decimalLength (scaled / one)
  let found := (List.range 17).findSome? fun n =>
    (neighbours scaled (top - (n + 1))).find? fun d => decimalRank d == rank
  found.getD (exactDecimal rank)

end Double

end PageBuilder
