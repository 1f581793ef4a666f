import Mathlib.Algebra.Group.Nat.Defs
import PageBuilder.Double.Decimal

/-!
Decimals are read by their value, and the decimal that is written for a number reads back.

* `ofDecimal_congr`: equal decimals are read alike, however many zeros their digits end with;
* `nearestRank_magnitude`: the magnitude of a rank is nearest to that rank;
* `ofDecimal_shortest`: the shortest decimal of a rank reads back as the number of the rank.
-/

namespace PageBuilder

/-- A decimal is its numerator over its denominator. -/
def Decimal.numerator (d : Decimal) : Nat := d.digits * 10 ^ d.exponent.toNat

def Decimal.denominator (d : Decimal) : Nat := 10 ^ (-d.exponent).toNat

theorem Decimal.denominator_pos (d : Decimal) : 0 < d.denominator := Nat.pow_pos (by decide)

namespace Double

/-! ## Ratios -/

/-- The rank nearest to a number of half units, of which a part may be left out. -/
def rankOfHalves (halves : Nat) (beyond : Bool) : Nat :=
  let dropped := max 1 (halves.log2 - 52)
  let kept := halves / 2 ^ dropped
  let rest := halves % 2 ^ dropped
  let half := 2 ^ (dropped - 1)
  let up := half < rest || (rest == half && (beyond || kept % 2 == 1))
  (dropped - 1) * 2 ^ 52 + kept + if up then 1 else 0

/-- The number of half units in one. -/
def halvesOfOne : Nat := Nat.pow 2 1075

theorem nearestRank_eq (num den : Nat) :
    nearestRank num den =
      rankOfHalves (num * halvesOfOne / den) (num * halvesOfOne % den != 0) := by
  unfold nearestRank rankOfHalves halvesOfOne
  rfl

theorem two_pow_of_eq_succ {m n : Nat} (h : m = n + 1) : Nat.pow 2 m = 2 * Nat.pow 2 n := by
  subst h
  exact Nat.pow_succ'

theorem halvesOfOne_eq : halvesOfOne = 2 * one := by
  unfold halvesOfOne one
  rw [two_pow_of_eq_succ rfl]

theorem one_pos : 0 < one := by
  unfold one
  exact Nat.pow_pos (n := 1074) (by decide)

theorem two_pow_mul_halvesOfOne (k : Nat) : 2 ^ (k + 1075) = 2 ^ k * halvesOfOne := by
  rw [Nat.pow_add]
  rfl

theorem nearestRank_mul (num den : Nat) {c : Nat} (hc : 0 < c) :
    nearestRank (num * c) (den * c) = nearestRank num den := by
  have hswap : num * c * halvesOfOne = num * halvesOfOne * c := Nat.mul_right_comm num c _
  have hmod : (num * c * halvesOfOne % (den * c) != 0) = (num * halvesOfOne % den != 0) := by
    rw [hswap, Nat.mul_mod_mul_right, Bool.eq_iff_iff, bne_iff_ne, bne_iff_ne, Ne, Nat.mul_eq_zero]
    omega
  rw [nearestRank_eq, nearestRank_eq, hmod, hswap, Nat.mul_div_mul_right _ _ hc]

/-- Equal ratios have the same nearest rank. -/
theorem nearestRank_congr {num den num' den' : Nat} (hden : 0 < den) (hden' : 0 < den')
    (h : num * den' = num' * den) : nearestRank num den = nearestRank num' den' := by
  rw [← nearestRank_mul num den hden', ← nearestRank_mul num' den' hden, h, Nat.mul_comm den]

/-- What is less than half a unit has rank zero. -/
theorem nearestRank_eq_zero {num den : Nat} (h : num * halvesOfOne < den) :
    nearestRank num den = 0 := by
  rw [nearestRank_eq, Nat.div_eq_of_lt h]
  cases num * halvesOfOne % den != 0 <;> rfl

theorem le_rankOfHalves {halves k : Nat} (beyond : Bool) (h : 2 ^ k ≤ halves) :
    (k - 53) * 2 ^ 52 ≤ rankOfHalves halves beyond := by
  have hne : halves ≠ 0 := by
    intro h0
    rw [h0, Nat.le_zero] at h
    exact absurd h (Nat.ne_of_gt (Nat.pow_pos (by decide)))
  have hlog : k ≤ halves.log2 := (Nat.le_log2 hne).mpr h
  have hdropped : k - 53 ≤ max 1 (halves.log2 - 52) - 1 := by omega
  have hmul := Nat.mul_le_mul_right (2 ^ 52) hdropped
  exact Nat.le_trans hmul (Nat.le_trans (Nat.le_add_right _ _) (Nat.le_add_right _ _))

/-- A large ratio has a large rank. -/
theorem le_nearestRank {num den k : Nat} (hden : 0 < den)
    (h : 2 ^ k * den ≤ num * halvesOfOne) : (k - 53) * 2 ^ 52 ≤ nearestRank num den := by
  rw [nearestRank_eq]
  exact le_rankOfHalves _ ((Nat.le_div_iff_mul_le hden).mpr h)

/-- A number of units that fits into the significand is read without rounding. -/
theorem rankOfHalves_shifted {s k : Nat} (hlow : k = 0 ∨ 2 ^ 52 ≤ s) (hhigh : s < 2 ^ 53) :
    rankOfHalves (s * 2 ^ (k + 1)) false = k * 2 ^ 52 + s := by
  have hpos : 0 < 2 ^ (k + 1) := Nat.pow_pos (by decide)
  have hhalf : 0 < 2 ^ k := Nat.pow_pos (by decide)
  have hdropped : max 1 ((s * 2 ^ (k + 1)).log2 - 52) = k + 1 := by
    by_cases hzero : s = 0
    · have hk : k = 0 := hlow.resolve_right (by omega)
      subst hzero hk
      decide
    · have hne : s * 2 ^ (k + 1) ≠ 0 := Nat.mul_ne_zero hzero (Nat.ne_of_gt hpos)
      have hupper : (s * 2 ^ (k + 1)).log2 < 53 + (k + 1) := by
        rw [Nat.log2_lt hne, Nat.pow_add 2 53]
        exact Nat.mul_lt_mul_of_pos_right hhigh hpos
      rcases hlow with rfl | hlow
      · omega
      · have hlower : 52 + (k + 1) ≤ (s * 2 ^ (k + 1)).log2 := by
          rw [Nat.le_log2 hne, Nat.pow_add 2 52]
          exact Nat.mul_le_mul_right _ hlow
        omega
  have hup : (decide (2 ^ k < 0) || (0 == 2 ^ k && (false || s % 2 == 1))) = false := by
    rw [beq_false_of_ne (Nat.ne_of_lt hhalf), Bool.false_and, Bool.or_false]
    exact decide_eq_false (Nat.not_lt_zero _)
  unfold rankOfHalves
  simp only [hdropped, Nat.mul_div_cancel s hpos, Nat.mul_mod_left, Nat.add_sub_cancel]
  rw [hup, if_neg Bool.false_ne_true, Nat.add_zero]

/-! ## Decimals -/

theorem ofRank_of_le (negative : Bool) {rank : Nat} (h : rankCount ≤ rank) :
    ofRank negative rank = infinity negative := dif_neg (by omega)

theorem ofRank_val (negative : Bool) (rank : Fin rankCount) :
    ofRank negative rank.val = finite negative rank := dif_pos rank.isLt

theorem two_pow_le_ten_pow (e : Nat) : 2 ^ (3 * e) ≤ 10 ^ e := by
  rw [Nat.pow_mul]
  exact Nat.pow_le_pow_left (by decide) e

theorem decimalRank_ofNat {digits : Nat} (h : digits ≠ 0) (e : Nat) :
    decimalRank ⟨digits, .ofNat e⟩ =
      if 400 < e then rankCount else nearestRank (digits * 10 ^ e) 1 := by
  cases digits with
  | zero => exact absurd rfl h
  | succ n => rfl

theorem decimalRank_negSucc {digits : Nat} (h : digits ≠ 0) (e : Nat) :
    decimalRank ⟨digits, .negSucc e⟩ =
      if 400 + digits.log2 < e then 0 else nearestRank digits (10 ^ (e + 1)) := by
  cases digits with
  | zero => exact absurd rfl h
  | succ n => rfl

/-- A decimal that is taken for an overflow without being looked at is one. -/
theorem rankCount_le_nearestRank {digits e : Nat} (hdigits : digits ≠ 0) (he : 400 < e) :
    rankCount ≤ nearestRank (digits * 10 ^ e) 1 := by
  have hk : 2 ^ (3 * e + 1075) * 1 ≤ digits * 10 ^ e * halvesOfOne := by
    rw [Nat.mul_one, two_pow_mul_halvesOfOne]
    refine Nat.mul_le_mul_right halvesOfOne ?_
    calc 2 ^ (3 * e) ≤ 10 ^ e := two_pow_le_ten_pow e
      _ ≤ digits * 10 ^ e := Nat.le_mul_of_pos_left _ (Nat.pos_of_ne_zero hdigits)
  exact Nat.le_trans (Nat.mul_le_mul_right _ (by omega)) (le_nearestRank Nat.one_pos hk)

/-- A decimal that is taken for zero without being looked at is less than half a unit. -/
theorem nearestRank_of_small {digits e : Nat} (he : 400 + digits.log2 < e) :
    nearestRank digits (10 ^ (e + 1)) = 0 := by
  apply nearestRank_eq_zero
  calc digits * halvesOfOne
      < 2 ^ (digits.log2 + 1) * halvesOfOne :=
        Nat.mul_lt_mul_of_pos_right Nat.lt_log2_self (Nat.pow_pos (by decide))
    _ = 2 ^ (digits.log2 + 1 + 1075) := (two_pow_mul_halvesOfOne _).symm
    _ ≤ 2 ^ (3 * (e + 1)) := Nat.pow_le_pow_right (by decide) (by omega)
    _ ≤ 10 ^ (e + 1) := two_pow_le_ten_pow _

/-- A decimal is read as the number nearest to its value. -/
theorem ofDecimal_eq (negative : Bool) (d : Decimal) :
    ofDecimal negative d = ofRank negative (nearestRank d.numerator d.denominator) := by
  obtain ⟨digits, exponent⟩ := d
  by_cases hdigits : digits = 0
  · subst hdigits
    have hzero : nearestRank (Decimal.numerator ⟨0, exponent⟩)
        (Decimal.denominator ⟨0, exponent⟩) = 0 := by
      apply nearestRank_eq_zero
      rw [Decimal.numerator, Nat.zero_mul, Nat.zero_mul]
      exact Decimal.denominator_pos _
    rw [hzero]
    rfl
  · cases exponent with
    | ofNat e =>
      have hden : Decimal.denominator ⟨digits, .ofNat e⟩ = 1 := by
        have h0 : (-Int.ofNat e).toNat = 0 := by
          rw [Int.toNat_eq_zero]
          exact Int.neg_nonpos_of_nonneg (Int.natCast_nonneg e)
        rw [Decimal.denominator, h0, Nat.pow_zero]
      have hnum : Decimal.numerator ⟨digits, .ofNat e⟩ = digits * 10 ^ e := rfl
      rw [ofDecimal, decimalRank_ofNat hdigits, hden, hnum]
      split
      · rename_i he
        rw [ofRank_of_le negative (Nat.le_refl _),
          ofRank_of_le negative (rankCount_le_nearestRank hdigits he)]
      · rfl
    | negSucc e =>
      have hnum : Decimal.numerator ⟨digits, .negSucc e⟩ = digits := Nat.mul_one digits
      have hden : Decimal.denominator ⟨digits, .negSucc e⟩ = 10 ^ (e + 1) := rfl
      rw [ofDecimal, decimalRank_negSucc hdigits, hden, hnum]
      split
      · rename_i he
        rw [nearestRank_of_small he]
      · rfl

/-- Decimals of the same value are read alike. -/
theorem ofDecimal_congr (negative : Bool) {d d' : Decimal}
    (h : d.numerator * d'.denominator = d'.numerator * d.denominator) :
    ofDecimal negative d = ofDecimal negative d' := by
  rw [ofDecimal_eq, ofDecimal_eq, nearestRank_congr d.denominator_pos d'.denominator_pos h]

/-! ## Magnitudes -/

/-- The magnitude of a rank is nearest to that rank. -/
theorem nearestRank_magnitude (rank : Nat) :
    nearestRank (magnitude rank) one = rank := by
  have hdiv := Nat.div_add_mod rank (2 ^ 52)
  have hmod := Nat.mod_lt rank (show 2 ^ 52 > 0 by decide)
  have hs : significand rank = rank - (rank / 2 ^ 52 - 1) * 2 ^ 52 := rfl
  have hk : shift rank = rank / 2 ^ 52 - 1 := rfl
  have hhalves : magnitude rank * halvesOfOne =
      significand rank * 2 ^ (shift rank + 1) * one := by
    rw [halvesOfOne_eq, ← Nat.mul_assoc, Nat.pow_succ, ← Nat.mul_assoc (significand rank)]
    rfl
  rw [nearestRank_eq, hhalves, Nat.mul_div_cancel _ one_pos, Nat.mul_mod_left]
  refine (rankOfHalves_shifted ?_ ?_).trans ?_
  · rw [hs, hk]
    omega
  · rw [hs]
    omega
  · rw [hs, hk]
    omega

theorem denominator_of_eq_neg {d : Decimal} {n : Nat} (h : d.exponent = -n) :
    d.denominator = Nat.pow 2 n * Nat.pow 5 n := by
  rw [Decimal.denominator, h, Int.neg_neg, Int.toNat_natCast]
  exact Nat.mul_pow 2 5 n

theorem exactDecimal_denominator (rank : Nat) :
    (exactDecimal rank).denominator = one * Nat.pow 5 1074 := by
  unfold one
  rw [denominator_of_eq_neg rfl]

/-- The shortest decimal of a rank reads back as the number of that rank. -/
theorem ofDecimal_shortest (negative : Bool) (rank : Nat) :
    ofDecimal negative (shortest rank) = ofRank negative rank := by
  unfold shortest
  simp only
  generalize hfound : (List.range 17).findSome? _ = found
  cases found with
  | some d =>
    obtain ⟨n, -, hd⟩ := List.exists_of_findSome?_eq_some hfound
    have hrank := List.find?_some hd
    rw [Option.getD_some, ofDecimal, eq_of_beq hrank]
  | none =>
    have hnum : (exactDecimal rank).numerator = magnitude rank * Nat.pow 5 1074 := Nat.mul_one _
    have hpos : 0 < Nat.pow 5 1074 := Nat.pow_pos (n := 1074) (by decide)
    rw [Option.getD_none, ofDecimal_eq, hnum, exactDecimal_denominator, nearestRank_mul _ _ hpos,
      nearestRank_magnitude]

end Double

end PageBuilder
