import PageBuilder.Proofs.Text.Parts
import PageBuilder.Text.Numeral

/-!
Digits of all scripts, and the numerals that they form.

* `Digits`: a text of nothing but digits, be they decimal ones or marks;
* `Numeral.integer?_of_digits`: what the numeral of such a text is;
* `Numeral.integer?_eq_none_iff`: it is no numeral just if it is empty or has a mark in it;
* `Numeral.integer?_toDigits`: the digits of a number are its numeral.
-/

namespace PageBuilder.Text

/-! ## Characters -/

theorem toNat_of_isDigit {c : Char} (h : c.isDigit = true) : 0x30 ≤ c.toNat ∧ c.toNat ≤ 0x39 := by
  rw [Char.isDigit, Bool.and_eq_true, decide_eq_true_iff, decide_eq_true_iff] at h
  exact h

theorem decimalDigit?_of_isDigit {c : Char} (h : c.isDigit = true) :
    decimalDigit? c = some (c.toNat - 0x30) := by
  have hzeros : decimalZeros = 0x30 :: decimalZeros.tail := rfl
  have hfind : decimalZeros.find? (fun first => first ≤ c.toNat && c.toNat < first + 10) =
      some 0x30 := by
    rw [hzeros]
    apply List.find?_cons_of_pos
    have := toNat_of_isDigit h
    simp only [Bool.and_eq_true, decide_eq_true_eq]
    omega
  rw [decimalDigit?, hfind, Option.map_some]

theorem isDigit_of_isDigit {c : Char} (h : c.isDigit = true) : isDigit c = true := by
  rw [isDigit, decimalDigit?_of_isDigit h, Option.isSome_some, Bool.true_or]

theorem digitChar_of_isDigit {c : Char} (h : c.isDigit = true) :
    Nat.digitChar (c.toNat - 0x30) = c := by
  have := toNat_of_isDigit h
  rw [← Char.toNat_inj, Nat.toNat_digitChar_of_lt_ten (by omega)]
  omega

/-- A decimal digit has its place in one of the runs of ten. -/
theorem mem_of_decimalDigit? {c : Char} {n : Nat} (h : decimalDigit? c = some n) :
    ∃ first ∈ decimalZeros, c.toNat = first + n ∧ n < 10 := by
  obtain ⟨first, hfind, rfl⟩ := Option.map_eq_some_iff.mp h
  have hrun := List.find?_some hfind
  simp only [Bool.and_eq_true, decide_eq_true_eq] at hrun
  exact ⟨first, List.mem_of_find?_eq_some hfind, by omega, by omega⟩

theorem mem_of_isDigitMark {c : Char} (h : isDigitMark c = true) :
    ∃ run ∈ digitMarks, ∃ n < run.2 + 1 - run.1, c.toNat = run.1 + n := by
  obtain ⟨run, hrun, hplace⟩ := List.any_eq_true.mp h
  simp only [Bool.and_eq_true, decide_eq_true_eq] at hplace
  exact ⟨run, hrun, c.toNat - run.1, by omega, by omega⟩

theorem eq_ofNat {c : Char} {n : Nat} (h : c.toNat = n) : c = Char.ofNat n := by
  rw [← h, Char.ofNat_toNat]

/-- No blank is a digit. -/
theorem isBlank_of_digit {c : Char} (h : isDigit c = true) : isBlank c = false := by
  have hzeros : ∀ first ∈ decimalZeros, ∀ n < 10, isBlank (Char.ofNat (first + n)) = false := by
    decide +kernel
  have hmarks : ∀ run ∈ digitMarks, ∀ n < run.2 + 1 - run.1,
      isBlank (Char.ofNat (run.1 + n)) = false := by
    decide +kernel
  rcases Bool.or_eq_true _ _ ▸ h with hdecimal | hmark
  · obtain ⟨d, hd⟩ := Option.isSome_iff_exists.mp hdecimal
    obtain ⟨first, hfirst, hplace, hlt⟩ := mem_of_decimalDigit? hd
    rw [eq_ofNat hplace]
    exact hzeros first hfirst d hlt
  · obtain ⟨run, hrun, n, hn, hplace⟩ := mem_of_isDigitMark hmark
    rw [eq_ofNat hplace]
    exact hmarks run hrun n hn

/-- A digit forms numbers just if it is no mark. -/
theorem decimalDigit?_eq_none_iff {c : Char} (h : isDigit c = true) :
    decimalDigit? c = none ↔ isDigitMark c = true := by
  have hmarks : ∀ run ∈ digitMarks, ∀ n < run.2 + 1 - run.1,
      decimalDigit? (Char.ofNat (run.1 + n)) = none := by
    decide +kernel
  constructor
  · intro hnone
    rwa [isDigit, hnone, Option.isSome_none, Bool.false_or] at h
  · intro hmark
    obtain ⟨run, hrun, n, hn, hplace⟩ := mem_of_isDigitMark hmark
    rw [eq_ofNat hplace]
    exact hmarks run hrun n hn

/-! ## Numerals -/

/-- A text of nothing but digits, be they decimal ones or marks. -/
def Digits (s : List Char) : Prop := s.all isDigit = true

instance (s : List Char) : Decidable (Digits s) :=
  inferInstanceAs (Decidable (s.all isDigit = true))

theorem Digits.of_isDigit {s : List Char} (h : ∀ c ∈ s, c.isDigit = true) : Digits s :=
  List.all_eq_true.mpr fun c hc => isDigit_of_isDigit (h c hc)

namespace Numeral

/-- A character as it stands in a plain numeral. -/
def plainChar (c : Char) : Char :=
  match decimalDigit? c with
  | some n => Nat.digitChar n
  | none => c

theorem plain_of_digits {s : List Char} (h : Digits s) : plain s = s.map plainChar := by
  have htrim : trimBoth isPadding s = s := by
    apply trimBoth_eq_self
    apply trimmed_of_forall
    intro c hc
    rw [isPadding, isBlank_of_digit (List.all_eq_true.mp h c hc), Bool.false_and]
  rw [plain, htrim]
  rfl

theorem plainChar_of_isDigit {c : Char} (h : c.isDigit = true) : plainChar c = c := by
  simp only [plainChar, decimalDigit?_of_isDigit h, digitChar_of_isDigit h]

/-- A digit is an ASCII digit in a plain numeral just if it forms numbers. -/
theorem isDigit_plainChar (c : Char) :
    (plainChar c).isDigit = (decimalDigit? c).isSome := by
  have hdigits : ∀ n < 10, (Nat.digitChar n).isDigit = true := by decide
  unfold plainChar
  cases hdecimal : decimalDigit? c with
  | some n =>
    obtain ⟨-, -, -, hlt⟩ := mem_of_decimalDigit? hdecimal
    exact hdigits n hlt
  | none =>
    cases hc : c.isDigit with
    | false => rfl
    | true =>
      rw [decimalDigit?_of_isDigit hc] at hdecimal
      cases hdecimal

/-- No digit is written as an underscore or as a sign in a plain numeral. -/
theorem plainChar_ne {c d : Char} (hc : isDigit c = true) (hd : isDigit d = false) :
    plainChar c ≠ d := by
  rintro rfl
  cases hdecimal : decimalDigit? c with
  | some n =>
    have hplain : (plainChar c).isDigit = true := by rw [isDigit_plainChar, hdecimal]; rfl
    rw [isDigit_of_isDigit hplain] at hd
    cases hd
  | none =>
    simp only [plainChar, hdecimal, hc] at hd
    cases hd

theorem dropUnderscores_of_ne {s : List Char} (h : ∀ c ∈ s, c ≠ '_') (afterDigit : Bool) :
    dropUnderscores afterDigit s = some s := by
  induction s generalizing afterDigit with
  | nil => rw [dropUnderscores]
  | cons c rest ih =>
    have hc := h c (List.mem_cons_self ..)
    have hrest := ih (fun d hd => h d (List.mem_cons_of_mem _ hd)) c.isDigit
    unfold dropUnderscores
    split
    · rename_i heq
      cases heq
    · rename_i heq
      exact absurd (List.cons.inj heq).1 hc
    · rename_i heq
      cases heq
      rw [if_neg hc, hrest, Option.map_some]

theorem splitSign_of_ne {s : List Char} (h : ∀ c ∈ s, c ≠ '-' ∧ c ≠ '+') :
    splitSign s = (false, s) := by
  unfold splitSign
  split
  · exact absurd rfl (h '-' (List.mem_cons_self ..)).1
  · exact absurd rfl (h '+' (List.mem_cons_self ..)).2
  · rfl

/-- A text of digits is read without a look at signs and underscores, of which it has none. -/
theorem integer?_of_digits {s : List Char} (h : Digits s) :
    integer? s = (digits? (s.map plainChar)).map fun n : Nat => (n : Int) := by
  have hne : ∀ d, isDigit d = false → ∀ c ∈ s.map plainChar, c ≠ d := by
    intro d hd c hc
    obtain ⟨e, he, rfl⟩ := List.mem_map.mp hc
    exact plainChar_ne (List.all_eq_true.mp h e he) hd
  have hunderscore := dropUnderscores_of_ne (hne '_' (by decide)) false
  have hsign : splitSign (s.map plainChar) = (false, s.map plainChar) :=
    splitSign_of_ne fun c hc => ⟨hne '-' (by decide) c hc, hne '+' (by decide) c hc⟩
  simp only [integer?, plain_of_digits h, hunderscore, Option.bind_eq_bind, Option.bind_some,
    hsign]
  cases digits? (s.map plainChar) <;> rfl

theorem digits?_eq_none_iff {s : List Char} :
    digits? s = none ↔ s = [] ∨ s.all Char.isDigit = false := by
  have hcond : (s.isEmpty || !s.all Char.isDigit) = true ↔ s = [] ∨ s.all Char.isDigit = false := by
    rw [Bool.or_eq_true, List.isEmpty_iff, Bool.not_eq_true']
  rw [digits?]
  split
  · rename_i h
    exact iff_of_true rfl (hcond.mp h)
  · rename_i h
    exact iff_of_false nofun fun hnone => h (hcond.mpr hnone)

/-- A text of digits is no numeral just if it is empty or has a mark in it. -/
theorem integer?_eq_none_iff {s : List Char} (h : Digits s) :
    integer? s = none ↔ s = [] ∨ ∃ c ∈ s, isDigitMark c = true := by
  have hall : (s.map plainChar).all Char.isDigit = false ↔ ∃ c ∈ s, isDigitMark c = true := by
    rw [List.all_map, List.all_eq_false]
    refine exists_congr fun c => and_congr_right fun hc => ?_
    rw [Function.comp_apply, isDigit_plainChar, Option.not_isSome_iff_eq_none,
      decimalDigit?_eq_none_iff (List.all_eq_true.mp h c hc)]
  rw [integer?_of_digits h, Option.map_eq_none_iff, digits?_eq_none_iff, List.map_eq_nil_iff, hall]

/-- The digits of a number are its numeral. -/
theorem integer?_toDigits (n : Nat) : integer? (Nat.toDigits 10 n) = some (n : Int) := by
  have hall : ∀ c ∈ Nat.toDigits 10 n, c.isDigit = true :=
    fun _ hc => Nat.isDigit_of_mem_toDigits (by decide) (by decide) hc
  have hplain : (Nat.toDigits 10 n).map plainChar = Nat.toDigits 10 n :=
    (List.map_congr_left fun c hc => plainChar_of_isDigit (hall c hc)).trans (List.map_id _)
  have hdigits : digits? (Nat.toDigits 10 n) = some n := by
    rw [digits?, if_neg, Nat.ofDigitChars_ten_toDigits]
    simpa [Nat.toDigits_ne_nil] using hall
  rw [integer?_of_digits (.of_isDigit hall), hplain, hdigits, Option.map_some]

end Numeral

end PageBuilder.Text
