import PageBuilder.Json.Reader
import PageBuilder.Json.Writer
import PageBuilder.Proofs.Double.Rank

/-!
Numbers that are written are read back.

* `readUnsigned_parts`: the parts of a number are found where they were put;
* `laid_layout`: digits are laid out as the parts of a number, of the same value in every layout;
* `readNumber_intText`, `readNumber_doubleText`: integers and finite numbers read back.
-/

namespace PageBuilder

/-! ## Values of decimals -/

namespace Decimal

/-- Equality of decimals as numbers. -/
def Same (d d' : Decimal) : Prop := d.numerator * d'.denominator = d'.numerator * d.denominator

theorem Same.ofDecimal {d d' : Decimal} (h : Same d d') (negative : Bool) :
    Double.ofDecimal negative d = Double.ofDecimal negative d' :=
  Double.ofDecimal_congr negative h

/-- Zeros at the end of the digits count for the exponent. -/
theorem same_of_zeros (n k : Nat) (e : Int) : Same ⟨n * 10 ^ k, e⟩ ⟨n, e + k⟩ := by
  have hexponents : k + e.toNat + (-(e + k)).toNat = (e + k).toNat + (-e).toNat := by omega
  unfold Same numerator denominator
  rw [Nat.mul_assoc n, ← Nat.pow_add, Nat.mul_assoc n, ← Nat.pow_add, hexponents, Nat.mul_assoc n,
    ← Nat.pow_add]

end Decimal

namespace Json

/-! ## Digits -/

def AllDigits (s : List Char) : Prop := ∀ c ∈ s, c.isDigit = true

/-- Digits before the point: at least one, and a zero only alone. -/
structure Whole (s : List Char) : Prop where
  digits : AllDigits s
  ne_nil : s ≠ []
  leading : ∀ rest, s = '0' :: rest → rest = []

/-- A text that does not go on with a digit. -/
def NoDigit (s : List Char) : Prop := ∀ c rest, s = c :: rest → c.isDigit = false

/-- A text that does not go on with a number. -/
structure Ends (s : List Char) : Prop where
  noDigit : NoDigit s
  noPoint : ∀ rest, s ≠ '.' :: rest
  noExponent : ∀ c rest, s = c :: rest → (c = 'e' || c = 'E') = false

theorem allDigits_toDigits (n : Nat) : AllDigits (Nat.toDigits 10 n) :=
  fun _ hc => Nat.isDigit_of_mem_toDigits (by decide) (by decide) hc

theorem NoDigit.cons {c : Char} (h : c.isDigit = false) (rest : List Char) :
    NoDigit (c :: rest) := by
  intro d t heq
  cases heq
  exact h

theorem splitDigits_append {s rest : List Char} (hs : AllDigits s) (hrest : NoDigit rest) :
    splitDigits (s ++ rest) = (s, rest) := by
  have htake : rest.takeWhile Char.isDigit = [] := by
    cases rest with
    | nil => rfl
    | cons c t => rw [List.takeWhile_cons_of_neg (by simp [hrest c t rfl])]
  have hdrop : rest.dropWhile Char.isDigit = rest := by
    cases rest with
    | nil => rfl
    | cons c t => rw [List.dropWhile_cons_of_neg (by simp [hrest c t rfl])]
  unfold splitDigits
  rw [List.takeWhile_append_of_pos hs, List.dropWhile_append_of_pos hs, htake, hdrop,
    List.append_nil]

theorem readWhole_append {s rest : List Char} (hs : Whole s) (hrest : NoDigit rest) :
    readWhole (s ++ rest) = some (s, rest) := by
  have hdigits := hs.digits
  cases s with
  | nil => exact absurd rfl hs.ne_nil
  | cons c t =>
    by_cases hc : c = '0'
    · subst hc
      obtain rfl := hs.leading t rfl
      rfl
    · have hdigit : c.isDigit = true := hdigits c (List.mem_cons_self ..)
      have hsplit := splitDigits_append hdigits hrest
      rw [List.cons_append] at hsplit ⊢
      unfold readWhole
      split
      · rename_i heq
        exact absurd (List.cons.inj heq).1 hc
      · rename_i heq
        cases heq
        rw [if_pos hdigit, hsplit]
      · rename_i heq
        cases heq

/-- The first digit of a number that is not zero. -/
theorem head_toDigits_ne_zero (n : Nat) (h : n ≠ 0) :
    ∀ rest, Nat.toDigits 10 n ≠ '0' :: rest := by
  induction n using Nat.strongRecOn with
  | ind n ih =>
    by_cases hlt : n < 10
    · intro rest heq
      rw [Nat.toDigits_of_lt_base hlt] at heq
      have hchar := (List.cons.inj heq).1
      have hall : ∀ m : Fin 10, m.val ≠ 0 → Nat.digitChar m ≠ '0' := by decide
      exact hall ⟨n, hlt⟩ h hchar
    · intro rest heq
      rw [Nat.toDigits_of_base_le (by decide) (by omega)] at heq
      cases hd : Nat.toDigits 10 (n / 10) with
      | nil => exact Nat.toDigits_ne_nil hd
      | cons c t =>
        rw [hd, List.cons_append] at heq
        have hc := (List.cons.inj heq).1
        subst hc
        exact ih (n / 10) (by omega) (by omega) t hd

theorem whole_toDigits (n : Nat) : Whole (Nat.toDigits 10 n) where
  digits := allDigits_toDigits n
  ne_nil := Nat.toDigits_ne_nil
  leading := by
    intro rest heq
    by_cases h : n = 0
    · subst h
      rw [Nat.toDigits_zero] at heq
      exact (List.cons.inj heq).2.symm
    · exact absurd heq (head_toDigits_ne_zero n h rest)

/-! ## Parts of a number -/

/-- The digits after the point, with the point. -/
def fractionText (part : List Char) : List Char := if part.isEmpty then [] else '.' :: part

def exponentTextOf : Option Int → List Char
  | none => []
  | some e => Double.exponentText e

theorem exponentText_eq (e : Int) :
    ∃ sign digits, Double.exponentText e = 'e' :: sign :: digits ∧ AllDigits digits ∧
      digits ≠ [] ∧ Nat.ofDigitChars 10 digits 0 = e.natAbs ∧
      (sign = '-' ∧ e < 0 ∨ sign = '+' ∧ 0 ≤ e) := by
  have hdigits : AllDigits (Double.exponentDigits e.natAbs) ∧
      Double.exponentDigits e.natAbs ≠ [] ∧
      Nat.ofDigitChars 10 (Double.exponentDigits e.natAbs) 0 = e.natAbs := by
    unfold Double.exponentDigits
    have hall := allDigits_toDigits e.natAbs
    simp only
    split
    · refine ⟨?_, List.cons_ne_nil _ _, ?_⟩
      · intro c hc
        rcases List.mem_cons.mp hc with rfl | hc
        · rfl
        · exact hall c hc
      · rw [Nat.ofDigitChars_cons]
        exact Nat.ofDigitChars_ten_toDigits
    · exact ⟨hall, Nat.toDigits_ne_nil, Nat.ofDigitChars_ten_toDigits⟩
  unfold Double.exponentText
  by_cases he : e < 0
  · exact ⟨'-', _, by rw [if_pos he], hdigits.1, hdigits.2.1, hdigits.2.2, .inl ⟨rfl, he⟩⟩
  · exact ⟨'+', _, by rw [if_neg he], hdigits.1, hdigits.2.1, hdigits.2.2, .inr ⟨rfl, by omega⟩⟩

theorem readExponent_append {e : Option Int} {rest : List Char} (h : Ends rest) :
    readExponent (exponentTextOf e ++ rest) = (e, rest) := by
  cases e with
  | none =>
    rw [exponentTextOf, List.nil_append]
    cases rest with
    | nil => rfl
    | cons c t =>
      simp only [readExponent, h.noExponent c t rfl, Bool.false_eq_true, if_false]
  | some e =>
    obtain ⟨sign, digits, htext, hall, hne, hvalue, hsign⟩ := exponentText_eq e
    have hsplit := splitDigits_append hall h.noDigit
    have hempty : digits.isEmpty = false := by simpa using hne
    rw [exponentTextOf, htext]
    rcases hsign with ⟨rfl, he⟩ | ⟨rfl, he⟩
    · have hneg : -(e.natAbs : Int) = e := by omega
      simp only [readExponent, List.cons_append, decide_true, Char.reduceEq, decide_false,
        Bool.or_false, if_true, hsplit, hempty, Bool.false_eq_true, if_false, hvalue, hneg]
    · have hpos : (e.natAbs : Int) = e := by omega
      simp only [readExponent, List.cons_append, decide_true, Char.reduceEq, decide_false,
        Bool.or_false, if_true, hsplit, hempty, Bool.false_eq_true, if_false, hvalue, hpos]

theorem noDigit_exponentTextOf {e : Option Int} {rest : List Char} (h : Ends rest) :
    NoDigit (exponentTextOf e ++ rest) := by
  cases e with
  | none => exact h.noDigit
  | some e => exact .cons rfl _

theorem readFraction_append {part : List Char} {e : Option Int} {rest : List Char}
    (hpart : AllDigits part) (h : Ends rest) :
    readFraction (fractionText part ++ (exponentTextOf e ++ rest)) =
      (part, exponentTextOf e ++ rest) := by
  cases part with
  | nil =>
    show readFraction (exponentTextOf e ++ rest) = _
    unfold readFraction
    split
    · rename_i t heq
      cases e with
      | none => exact absurd heq (h.noPoint t)
      | some e => cases heq
    · rfl
  | cons c t =>
    have hsplit := splitDigits_append hpart (noDigit_exponentTextOf (e := e) h)
    show readFraction ('.' :: (c :: t ++ (exponentTextOf e ++ rest))) = _
    unfold readFraction
    simp only [hsplit]
    rfl

theorem noDigit_fractionText {part : List Char} {e : Option Int} {rest : List Char}
    (h : Ends rest) : NoDigit (fractionText part ++ (exponentTextOf e ++ rest)) := by
  cases part with
  | nil => exact noDigit_exponentTextOf h
  | cons c t => exact .cons rfl _

/-- The parts of a number are found where they were put. -/
theorem readUnsigned_parts {whole part : List Char} {e : Option Int} {rest : List Char}
    (negative : Bool) (hwhole : Whole whole) (hpart : AllDigits part) (h : Ends rest) :
    readUnsigned negative (whole ++ (fractionText part ++ (exponentTextOf e ++ rest))) =
      some (number negative whole part e, rest) := by
  unfold readUnsigned
  rw [readWhole_append hwhole (noDigit_fractionText h)]
  simp only [readFraction_append hpart h, readExponent_append h]

/-! ## Layouts -/

theorem Whole.of_head {c : Char} {t : List Char} (hall : AllDigits (c :: t)) (hc : c ≠ '0') :
    Whole (c :: t) where
  digits := hall
  ne_nil := List.cons_ne_nil c t
  leading := fun _ heq => absurd (List.cons.inj heq).1 hc

/-- A text with the parts of a number that is not an integer, of a given value. -/
def Laid (d : Decimal) (text : List Char) : Prop :=
  ∃ whole part e, text = whole ++ (fractionText part ++ exponentTextOf e) ∧ Whole whole ∧
    AllDigits part ∧ (part.isEmpty && e.isNone) = false ∧
    Decimal.Same ⟨Nat.ofDigitChars 10 (whole ++ part) 0, e.getD 0 - part.length⟩ d

theorem AllDigits.append {s t : List Char} (hs : AllDigits s) (ht : AllDigits t) :
    AllDigits (s ++ t) :=
  List.forall_mem_append.mpr ⟨hs, ht⟩

theorem allDigits_zeros (n : Nat) : AllDigits (List.replicate n '0') := by
  intro c hc
  rw [List.eq_of_mem_replicate hc]
  rfl

/-- With an exponent the point stands after the first digit. -/
theorem laid_scientific {c : Char} {t : List Char} (hall : AllDigits (c :: t)) (hc : c ≠ '0')
    (point : Int) :
    Laid ⟨Nat.ofDigitChars 10 (c :: t) 0, point - (c :: t).length⟩
      (match c :: t with
        | [] => ['0', '.', '0']
        | [d] => d :: Double.exponentText (point - 1)
        | d :: rest => d :: '.' :: (rest ++ Double.exponentText (point - 1))) := by
  have hfirst : Whole [c] := .of_head (fun d hd => hall d (by simp_all)) hc
  refine ⟨[c], t, some (point - 1), ?_, hfirst, fun d hd => hall d (List.mem_cons_of_mem _ hd),
    ?_, ?_⟩
  · cases t <;> rfl
  · simp
  · have he : point - 1 - (t.length : Int) = point - ((c :: t).length : Int) := by
      rw [List.length_cons]
      omega
    rw [Option.getD_some, he]
    rfl

/-- A small number begins with zeros. -/
theorem laid_small {digits : List Char} (hall : AllDigits digits) (hne : digits ≠ [])
    {point : Int} (hpoint : point ≤ 0) :
    Laid ⟨Nat.ofDigitChars 10 digits 0, point - digits.length⟩
      ('0' :: '.' :: (List.replicate point.natAbs '0' ++ digits)) := by
  refine ⟨['0'], List.replicate point.natAbs '0' ++ digits, none, ?_, whole_toDigits 0,
    (allDigits_zeros _).append hall, ?_, ?_⟩
  · simp [fractionText, exponentTextOf, hne]
  · simp [hne]
  · have he : (none : Option Int).getD 0 -
        ((List.replicate point.natAbs '0' ++ digits).length : Int) = point - digits.length := by
      rw [List.length_append, List.length_replicate, Option.getD_none]
      omega
    have hvalue : Nat.ofDigitChars 10 (['0'] ++ (List.replicate point.natAbs '0' ++ digits)) 0 =
        Nat.ofDigitChars 10 digits 0 := by
      rw [Nat.ofDigitChars_append, Nat.ofDigitChars_append, Nat.ofDigitChars_replicate_zero]
      rfl
    rw [he, hvalue]
    rfl

/-- A large number ends with zeros, and has one more after the point. -/
theorem laid_large {c : Char} {t : List Char} (hall : AllDigits (c :: t)) (hc : c ≠ '0')
    {point : Int} (hpoint : 0 < point) (hlength : (c :: t).length ≤ point.natAbs) :
    Laid ⟨Nat.ofDigitChars 10 (c :: t) 0, point - (c :: t).length⟩
      (c :: t ++ List.replicate (point.natAbs - (c :: t).length) '0' ++ ['.', '0']) := by
  refine ⟨c :: t ++ List.replicate (point.natAbs - (c :: t).length) '0', ['0'], none, rfl,
    .of_head (hall.append (allDigits_zeros _)) hc, allDigits_zeros 1, rfl, ?_⟩
  have hvalue : Nat.ofDigitChars 10
      (c :: t ++ List.replicate (point.natAbs - (c :: t).length) '0' ++ ['0']) 0 =
      Nat.ofDigitChars 10 (c :: t) 0 * 10 ^ (point.natAbs - (c :: t).length + 1) := by
    rw [List.append_assoc, ← List.replicate_succ', Nat.ofDigitChars_append,
      Nat.ofDigitChars_replicate_zero, Nat.mul_comm]
  have hsame := Decimal.same_of_zeros (Nat.ofDigitChars 10 (c :: t) 0)
    (point.natAbs - (c :: t).length + 1) (-1)
  have he : -1 + ((point.natAbs - (c :: t).length + 1 : Nat) : Int) = point - (c :: t).length := by
    omega
  rw [he] at hsame
  rw [hvalue]
  exact hsame

/-- A number of medium size has the point among its digits. -/
theorem laid_medium {c : Char} {t : List Char} (hall : AllDigits (c :: t)) (hc : c ≠ '0')
    {point : Int} (hpoint : 0 < point) (hlength : point.natAbs < (c :: t).length) :
    Laid ⟨Nat.ofDigitChars 10 (c :: t) 0, point - (c :: t).length⟩
      ((c :: t).take point.natAbs ++ '.' :: (c :: t).drop point.natAbs) := by
  obtain ⟨k, hk⟩ : ∃ k, point.natAbs = k + 1 := ⟨point.natAbs - 1, by omega⟩
  have hdrop : (c :: t).drop point.natAbs ≠ [] := by
    rw [Ne, List.drop_eq_nil_iff]
    omega
  refine ⟨(c :: t).take point.natAbs, (c :: t).drop point.natAbs, none, ?_, ?_,
    fun d hd => hall d (List.mem_of_mem_drop hd), ?_, ?_⟩
  · simp [fractionText, exponentTextOf, hdrop]
  · rw [hk, List.take_succ_cons]
    refine .of_head (fun d hd => hall d ?_) hc
    rw [← List.take_succ_cons] at hd
    exact List.mem_of_mem_take hd
  · simp [hdrop]
  · have he : (none : Option Int).getD 0 - (((c :: t).drop point.natAbs).length : Int) =
        point - (c :: t).length := by
      rw [List.length_drop, Option.getD_none]
      omega
    rw [List.take_append_drop, he]
    rfl

/-- Digits are laid out as the parts of a number of their value. -/
theorem laid_layout {c : Char} {t : List Char} (hall : AllDigits (c :: t)) (hc : c ≠ '0')
    (point : Int) :
    Laid ⟨Nat.ofDigitChars 10 (c :: t) 0, point - (c :: t).length⟩
      (Double.layout (c :: t) point) := by
  unfold Double.layout
  simp only
  split
  · exact laid_scientific hall hc point
  · split
    · rename_i hpoint
      exact laid_small hall (List.cons_ne_nil c t) hpoint
    · rename_i hpoint
      split
      · rename_i hlength
        exact laid_large hall hc (by omega) hlength
      · rename_i hlength
        exact laid_medium hall hc (by omega) (by omega)

/-! ## Written numbers -/

theorem trimZeros_append (s : List Char) :
    ∃ zeros, s = Double.trimZeros s ++ List.replicate zeros '0' := by
  refine ⟨(s.reverse.takeWhile (· == '0')).length, ?_⟩
  have hsplit := List.takeWhile_append_dropWhile (p := (· == '0')) (l := s.reverse)
  have hzeros : s.reverse.takeWhile (· == '0') =
      List.replicate (s.reverse.takeWhile (· == '0')).length '0' :=
    List.eq_replicate_of_mem fun c hc => eq_of_beq (List.all_eq_true.mp List.all_takeWhile c hc)
  have hback := congrArg List.reverse hsplit
  rw [List.reverse_append, List.reverse_reverse] at hback
  rw [← List.reverse_replicate, ← hzeros]
  exact hback.symm

theorem shortest_digits_ne_zero {rank : Nat} (hlt : rank < Double.rankCount) (hne : rank ≠ 0) :
    (Double.shortest rank).digits ≠ 0 := by
  intro hzero
  have hread := Double.ofDecimal_shortest false rank
  have hrank : Double.ofDecimal false (Double.shortest rank) = Double.ofRank false 0 := by
    cases hd : Double.shortest rank with
    | mk digits exponent =>
      rw [hd] at hzero
      obtain rfl : digits = 0 := hzero
      cases exponent <;> rfl
  rw [hrank, Double.ofRank, Double.ofRank, dif_pos hlt, dif_pos (by decide)] at hread
  cases hread
  exact hne rfl

/-- The text of a rank has the parts of a number that reads back as the number of the rank. -/
theorem laid_magnitudeText {rank : Nat} (hlt : rank < Double.rankCount) (negative : Bool) :
    ∃ d, Laid d (Double.magnitudeText rank) ∧
      Double.ofDecimal negative d = Double.ofRank negative rank := by
  unfold Double.magnitudeText
  split
  · rename_i hzero
    subst hzero
    have hsame : Decimal.Same ⟨Nat.ofDigitChars 10 ['0', '0'] 0, -1⟩ ⟨0, -1⟩ := rfl
    exact ⟨⟨0, -1⟩, ⟨['0'], ['0'], none, rfl, whole_toDigits 0, allDigits_zeros 1, rfl, hsame⟩, rfl⟩
  · rename_i hne
    have hdigits := shortest_digits_ne_zero hlt hne
    have hread := Double.ofDecimal_shortest negative rank
    generalize Double.shortest rank = d at hdigits hread
    obtain ⟨n, exponent⟩ := d
    have hhead := head_toDigits_ne_zero n hdigits
    obtain ⟨zeros, hzeros⟩ := trimZeros_append (Nat.toDigits 10 n)
    have hall := allDigits_toDigits n
    have hvalue : Nat.ofDigitChars 10 (Nat.toDigits 10 n) 0 = n := Nat.ofDigitChars_ten_toDigits
    simp only
    generalize Double.trimZeros (Nat.toDigits 10 n) = trimmed at hzeros
    rw [hzeros] at hhead hall hvalue ⊢
    cases trimmed with
    | nil =>
      cases zeros with
      | zero => exact absurd hzeros Nat.toDigits_ne_nil
      | succ k => exact absurd rfl (hhead (List.replicate k '0'))
    | cons c t =>
      have hc : c ≠ '0' := by
        rintro rfl
        exact hhead _ rfl
      have hlaid := laid_layout (fun d hd => hall d (List.mem_append_left _ hd)) hc
        (((c :: t ++ List.replicate zeros '0').length : Int) + exponent)
      refine ⟨_, hlaid, ?_⟩
      rw [← hread]
      have hn : n = Nat.ofDigitChars 10 (c :: t) 0 * 10 ^ zeros := by
        rw [← hvalue, Nat.ofDigitChars_append, Nat.ofDigitChars_replicate_zero, Nat.mul_comm]
      have he : ((c :: t ++ List.replicate zeros '0').length : Int) + exponent - (c :: t).length =
          exponent + zeros := by
        rw [List.length_append, List.length_replicate]
        omega
      rw [hn, he]
      exact ((Decimal.same_of_zeros _ zeros exponent).ofDecimal negative).symm

theorem readUnsigned_laid {d : Decimal} {text rest : List Char} (h : Laid d text)
    (negative : Bool) (hrest : Ends rest) :
    readUnsigned negative (text ++ rest) = some (.float (.ofDecimal negative d), rest) := by
  obtain ⟨whole, part, e, rfl, hwhole, hpart, hinexact, hsame⟩ := h
  rw [List.append_assoc, List.append_assoc, readUnsigned_parts negative hwhole hpart hrest, number]
  simp only [hinexact, Bool.false_eq_true, if_false]
  rw [hsame.ofDecimal]

/-- A text that begins with a digit. -/
def DigitFirst (s : List Char) : Prop := ∃ c t, s = c :: t ∧ c.isDigit = true

theorem Whole.digitFirst {s : List Char} (h : Whole s) (rest : List Char) :
    DigitFirst (s ++ rest) := by
  obtain ⟨hall, hne, -⟩ := h
  cases s with
  | nil => exact absurd rfl hne
  | cons c t => exact ⟨c, t ++ rest, rfl, hall c (List.mem_cons_self ..)⟩

theorem Laid.digitFirst {d : Decimal} {text : List Char} (h : Laid d text) (rest : List Char) :
    DigitFirst (text ++ rest) := by
  obtain ⟨whole, part, e, rfl, hwhole, -⟩ := h
  rw [List.append_assoc]
  exact hwhole.digitFirst _

theorem readNumber_of_digitFirst {s : List Char} (h : DigitFirst s) :
    readNumber s = match readUnsigned false s with
      | some r => .ok r
      | none => stop .value s := by
  obtain ⟨c, t, rfl, hc⟩ := h
  unfold readNumber
  split
  · rename_i heq
    cases heq
    cases hc
  · rfl

theorem readUnsigned_toDigits (n : Nat) (negative : Bool) {rest : List Char} (h : Ends rest) :
    readUnsigned negative (Nat.toDigits 10 n ++ rest) =
      some (.int (if negative then -n else n), rest) := by
  have hnone : AllDigits [] := fun c hc => by cases hc
  have hparts := readUnsigned_parts (e := none) negative (whole_toDigits n) hnone h
  rw [number, List.append_nil, Nat.ofDigitChars_ten_toDigits] at hparts
  exact hparts

/-- Integers read back. -/
theorem readNumber_intText (n : Int) {rest : List Char} (h : Ends rest) :
    readNumber (intText n ++ rest) = .ok (.int n, rest) := by
  cases n with
  | ofNat n =>
    show readNumber (Nat.toDigits 10 n ++ rest) = _
    rw [readNumber_of_digitFirst ((whole_toDigits n).digitFirst rest),
      readUnsigned_toDigits n false h]
    rfl
  | negSucc n =>
    show readNumber ('-' :: (Nat.toDigits 10 (n + 1) ++ rest)) = _
    unfold readNumber
    simp only [readUnsigned_toDigits (n + 1) true h]
    rfl

/-- Finite numbers read back. -/
theorem readNumber_doubleText {x : Double} (hx : x.isFinite = true) (words : Double.Words)
    {rest : List Char} (h : Ends rest) :
    readNumber (x.text words ++ rest) = .ok (.float x, rest) := by
  cases x with
  | nan => cases hx
  | infinity negative => cases hx
  | finite negative rank =>
    obtain ⟨d, hlaid, hd⟩ := laid_magnitudeText rank.isLt negative
    have hread := readUnsigned_laid hlaid negative h
    rw [hd, Double.ofRank_val] at hread
    rw [Double.text, Double.signed]
    cases negative with
    | false =>
      rw [if_neg Bool.false_ne_true, readNumber_of_digitFirst (hlaid.digitFirst rest), hread]
    | true =>
      rw [if_pos rfl, List.cons_append]
      unfold readNumber
      simp only [hread]

end Json

end PageBuilder
