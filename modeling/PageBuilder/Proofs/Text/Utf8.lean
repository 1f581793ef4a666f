import PageBuilder.Text.Utf8

/-!
Texts that are encoded are decoded again.

* `ofCodePoint_toNat`: the code point of a character stands for it;
* `decodeFrom_char`: the octets of one character are decoded to it, whatever follows them;
* `decode_encode`: the octets of a text are decoded to its characters.
-/

namespace PageBuilder.Text

theorem ofCodePoint_toNat (c : Char) : ofCodePoint c.toNat = c := by
  unfold ofCodePoint
  rw [if_pos (show c.toNat.isValidChar from c.valid), Char.ofNat_toNat]

namespace Utf8

/-! ## Begun characters -/

section Begun

variable {place : Nat} {p : Begun} {b : UInt8}

/-- The code point so far, with the bits of one more octet. -/
def Begun.next (p : Begun) (b : UInt8) : Nat := p.bits * 64 + (b.toNat - 0x80)

theorem bounds_eq_true {least greatest : UInt8} (hleast : least ≤ b) (hgreatest : b ≤ greatest) :
    (decide (least ≤ b) && decide (b ≤ greatest)) = true := by
  rw [decide_eq_true hleast, decide_eq_true hgreatest]
  rfl

theorem decodeFrom_last (hleast : p.least ≤ b) (hgreatest : b ≤ p.greatest) (howed : p.owed = 1)
    (rest : List UInt8) : decodeFrom place (some p) (b :: rest) =
      (decodeFrom (place + 1) none rest).map (ofCodePoint (p.next b) :: ·) := by
  conv => lhs; unfold decodeFrom
  rw [if_pos (bounds_eq_true hleast hgreatest)]
  exact if_pos (Nat.le_of_eq howed)

theorem decodeFrom_more (hleast : p.least ≤ b) (hgreatest : b ≤ p.greatest) (howed : 1 < p.owed)
    (rest : List UInt8) : decodeFrom place (some p) (b :: rest) =
      decodeFrom (place + 1) (some ⟨p.start, p.first, p.owed - 1, 0x80, 0xbf, p.next b⟩) rest := by
  conv => lhs; unfold decodeFrom
  rw [if_pos (bounds_eq_true hleast hgreatest)]
  exact if_neg (Nat.not_le_of_lt howed)

theorem decodeFrom_begin (h : begin? place b = some p) (hb : 0x80 ≤ b) (rest : List UInt8) :
    decodeFrom place none (b :: rest) = decodeFrom (place + 1) (some p) rest := by
  have hge : ¬b < 0x80 := UInt8.not_lt.mpr hb
  conv => lhs; unfold decodeFrom
  rw [if_neg hge, h]

end Begun

/-! ## Octets after the first -/

/-- An octet after the first one, by its six bits. -/
def tail (n : Nat) : UInt8 := UInt8.ofNat (n % 64 + 0x80)

theorem toNat_tail (n : Nat) : (tail n).toNat = n % 64 + 0x80 :=
  UInt8.toNat_ofNat_of_lt' (show n % 64 + 0x80 < 256 by omega)

theorem tail_bounds (n : Nat) : 0x80 ≤ tail n ∧ tail n ≤ 0xbf := by
  simp only [UInt8.le_iff_toNat_le, toNat_tail]
  constructor
  · exact Nat.le_add_left 128 _
  · show n % 64 + 128 ≤ 191
    omega

theorem next_tail (p : Begun) (n : Nat) : p.next (tail n) = p.bits * 64 + n % 64 := by
  show p.bits * 64 + ((tail n).toNat - 0x80) = _
  rw [toNat_tail]
  omega

/-! ## Characters by their width -/

section Widths

variable (place : Nat) {n : Nat}

theorem begin?_two (hlow : 0x80 ≤ n) (hhigh : n ≤ 0x7ff) :
    begin? place (UInt8.ofNat (n / 64 % 32 + 0xc0)) =
      some ⟨place, UInt8.ofNat (n / 64 % 32 + 0xc0), 1, 0x80, 0xbf, n / 64⟩ := by
  unfold begin?
  simp only [UInt8.toNat_ofNat_of_lt' (show n / 64 % 32 + 0xc0 < 256 by omega)]
  simp only [Bool.and_eq_true, decide_eq_true_eq]
  rw [if_pos (by omega), show n / 64 % 32 + 0xc0 - 0xc0 = n / 64 by omega]

/-- The second octet of three rules out what two octets encode, and the surrogates. -/
theorem begin?_three (hlow : 0x800 ≤ n) (hhigh : n ≤ 0xffff) (hvalid : n < 0xd800 ∨ 0xdfff < n) :
    ∃ least greatest, begin? place (UInt8.ofNat (n / 4096 % 16 + 0xe0)) =
        some ⟨place, UInt8.ofNat (n / 4096 % 16 + 0xe0), 2, least, greatest, n / 4096⟩ ∧
      least ≤ tail (n / 64) ∧ tail (n / 64) ≤ greatest := by
  unfold begin?
  simp only [UInt8.toNat_ofNat_of_lt' (show n / 4096 % 16 + 0xe0 < 256 by omega)]
  simp only [Bool.and_eq_true, decide_eq_true_eq, beq_iff_eq]
  rw [if_neg (by omega)]
  simp only [UInt8.le_iff_toNat_le, toNat_tail]
  by_cases hfirst : n / 4096 = 0
  · rw [if_pos (by omega)]
    exact ⟨_, _, by rw [hfirst], by simp; omega, by simp; omega⟩
  · rw [if_neg (by omega)]
    by_cases hsurrogate : n / 4096 = 0xd
    · rw [if_pos (by omega)]
      exact ⟨_, _, by rw [hsurrogate], by simp, by simp; omega⟩
    · rw [if_neg (by omega), if_pos (by omega),
        show n / 4096 % 16 + 0xe0 - 0xe0 = n / 4096 by omega]
      exact ⟨_, _, rfl, by simp, by simp; omega⟩

/-- The second octet of four rules out what three octets encode, and what is no code point. -/
theorem begin?_four (hlow : 0x10000 ≤ n) (hhigh : n < 0x110000) :
    ∃ least greatest, begin? place (UInt8.ofNat (n / 262144 % 8 + 0xf0)) =
        some ⟨place, UInt8.ofNat (n / 262144 % 8 + 0xf0), 3, least, greatest, n / 262144⟩ ∧
      least ≤ tail (n / 4096) ∧ tail (n / 4096) ≤ greatest := by
  unfold begin?
  simp only [UInt8.toNat_ofNat_of_lt' (show n / 262144 % 8 + 0xf0 < 256 by omega)]
  simp only [Bool.and_eq_true, decide_eq_true_eq, beq_iff_eq]
  rw [if_neg (by omega), if_neg (by omega), if_neg (by omega), if_neg (by omega)]
  simp only [UInt8.le_iff_toNat_le, toNat_tail]
  by_cases hfirst : n / 262144 = 0
  · rw [if_pos (by omega)]
    exact ⟨_, _, by rw [hfirst], by simp; omega, by simp; omega⟩
  · rw [if_neg (by omega)]
    by_cases hlast : n / 262144 = 4
    · rw [if_neg (by omega), if_pos (by omega)]
      exact ⟨_, _, by rw [hlast], by simp, by simp; omega⟩
    · rw [if_pos (by omega), show n / 262144 % 8 + 0xf0 - 0xf0 = n / 262144 by omega]
      exact ⟨_, _, rfl, by simp, by simp; omega⟩

end Widths

/-! ## Texts -/

theorem le_first {n : Nat} (hlow : 0xc0 ≤ n) (hhigh : n < 256) : 0x80 ≤ UInt8.ofNat n := by
  rw [UInt8.le_iff_toNat_le, UInt8.toNat_ofNat_of_lt' hhigh]
  simp
  omega

/-- The octets of one character are decoded to it, whatever follows them. -/
theorem decodeFrom_char (c : Char) (place : Nat) (rest : List UInt8) :
    ∃ place', decodeFrom place none (String.utf8EncodeChar c ++ rest) =
      (decodeFrom place' none rest).map (c :: ·) := by
  have hvalid : c.toNat < 0xd800 ∨ 0xdfff < c.toNat ∧ c.toNat < 0x110000 := c.valid
  have hpoint := ofCodePoint_toNat c
  unfold String.utf8EncodeChar
  rw [show c.val.toNat = c.toNat from rfl]
  generalize c.toNat = n at hvalid hpoint ⊢
  simp only
  split
  · rename_i h
    refine ⟨place + 1, ?_⟩
    have hn : (UInt8.ofNat n).toNat = n := UInt8.toNat_ofNat_of_lt' (show n < 256 by omega)
    have hlt : UInt8.ofNat n < 0x80 := by
      rw [UInt8.lt_iff_toNat_lt, hn]
      simp
      omega
    rw [List.singleton_append, decodeFrom, if_pos hlt, hn, ← hpoint, ofCodePoint,
      if_pos (Or.inl (by omega))]
  · split
    · rename_i h
      refine ⟨place + 1 + 1, ?_⟩
      have hbegin := begin?_two place (n := n) (by omega) h
      obtain ⟨hleast, hgreatest⟩ := tail_bounds n
      show decodeFrom place none (_ :: tail n :: rest) = _
      rw [decodeFrom_begin hbegin (le_first (by omega) (by omega)),
        decodeFrom_last hleast hgreatest rfl, next_tail]
      rw [show n / 64 * 64 + n % 64 = n by omega, hpoint]
    · split
      · rename_i h
        refine ⟨place + 1 + 1 + 1, ?_⟩
        obtain ⟨least, greatest, hbegin, hleast, hgreatest⟩ :=
          begin?_three place (n := n) (by omega) h (by omega)
        obtain ⟨hleast', hgreatest'⟩ := tail_bounds n
        show decodeFrom place none (_ :: tail (n / 64) :: tail n :: rest) = _
        rw [decodeFrom_begin hbegin (le_first (by omega) (by omega)),
          decodeFrom_more hleast hgreatest (by simp), decodeFrom_last hleast' hgreatest' rfl,
          next_tail, next_tail]
        rw [show (n / 4096 * 64 + n / 64 % 64) * 64 + n % 64 = n by omega, hpoint]
      · refine ⟨place + 1 + 1 + 1 + 1, ?_⟩
        obtain ⟨least, greatest, hbegin, hleast, hgreatest⟩ :=
          begin?_four place (n := n) (by omega) (by omega)
        obtain ⟨hleast', hgreatest'⟩ := tail_bounds (n / 64)
        obtain ⟨hleast'', hgreatest''⟩ := tail_bounds n
        show decodeFrom place none (_ :: tail (n / 4096) :: tail (n / 64) :: tail n :: rest) = _
        rw [decodeFrom_begin hbegin (le_first (by omega) (by omega)),
          decodeFrom_more hleast hgreatest (by simp), decodeFrom_more hleast' hgreatest' (by simp),
          decodeFrom_last hleast'' hgreatest'' rfl, next_tail, next_tail, next_tail]
        rw [show ((n / 262144 * 64 + n / 4096 % 64) * 64 + n / 64 % 64) * 64 + n % 64 = n by omega,
          hpoint]

theorem decodeFrom_chars (s : List Char) (place : Nat) :
    decodeFrom place none (s.flatMap String.utf8EncodeChar) = .ok s := by
  induction s generalizing place with
  | nil => rfl
  | cons c rest ih =>
    obtain ⟨place', h⟩ := decodeFrom_char c place (rest.flatMap String.utf8EncodeChar)
    rw [List.flatMap_cons, h, ih]
    rfl

/-- The octets of a text are decoded to its characters. -/
theorem decode_encode (s : String) : decode (encode s) = .ok s.toList :=
  decodeFrom_chars s.toList 0

end Utf8

end PageBuilder.Text
