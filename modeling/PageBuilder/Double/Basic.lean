/-!
Binary64 numbers without arithmetic. A finite number is a sign and a rank, the place of its
magnitude among all finite magnitudes in increasing order, so that two finite numbers are the
same exactly when signs and ranks are. Magnitudes are natural numbers of the smallest unit,
2^-1074.
-/

namespace PageBuilder

/-- How many finite magnitudes there are, zero included. -/
def Double.rankCount : Nat := 2047 * Nat.pow 2 52

inductive Double where
  | nan
  | infinity (negative : Bool)
  | finite (negative : Bool) (rank : Fin Double.rankCount)
  deriving DecidableEq

namespace Double

/-! ## Magnitudes -/

/-- How far the significand of a rank is shifted left to give its magnitude. -/
def shift (rank : Nat) : Nat := rank / Nat.pow 2 52 - 1

def significand (rank : Nat) : Nat := rank - shift rank * Nat.pow 2 52

/-- The magnitude of a rank, counted in units of 2^-1074. -/
def magnitude (rank : Nat) : Nat := significand rank * Nat.pow 2 (shift rank)

/-- The number of units of 2^-1074 in one. -/
def one : Nat := Nat.pow 2 1074

/-- The signed magnitude of a finite number, counted in units of 2^-1074. -/
def units : Double → Option Int
  | finite negative rank =>
    let size : Int := magnitude rank
    some (if negative then -size else size)
  | _ => none

/-! ## Tests -/

def isFinite : Double → Bool
  | finite .. => true
  | _ => false

def isZero : Double → Bool
  | finite _ rank => rank.val == 0
  | _ => false

def isPositive : Double → Bool
  | nan => false
  | infinity negative => !negative
  | finite negative rank => !negative && rank.val != 0

/-- Equality of numbers: both zeros are equal, and nothing equals a number that is none. -/
def sameNumber : Double → Double → Bool
  | infinity a, infinity b => a == b
  | x@(finite ..), y@(finite ..) => x.units == y.units
  | _, _ => false

def isInteger (x : Double) (n : Int) : Bool :=
  x.units == some (n * one)

/-! ## Integral parts -/

/-- The integer next to a finite number on the side of zero. -/
def truncate? (x : Double) : Option Int :=
  x.units.map (·.tdiv one)

/-- The integer that a finite number without fraction is. -/
def integer? (x : Double) : Option Int :=
  x.truncate?.filter x.isInteger

end Double

end PageBuilder
