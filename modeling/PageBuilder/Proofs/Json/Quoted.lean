import PageBuilder.Json.Reader
import PageBuilder.Json.Writer
import PageBuilder.Proofs.Text.Utf8

/-!
Texts that are written are read back.

* `readText_escaped`: the code points of an escaped text are read up to its closing quote;
* `joinPairs_points`: the code points of characters join to these characters;
* `readQuoted_quoted`: a quoted text reads back, whatever follows it.
-/

namespace PageBuilder

/-! ## Code points -/

namespace Text

theorem isHigh_of_char (c : Char) : isHigh c.toNat = false := by
  have hvalid : c.toNat.isValidChar := c.valid
  unfold isHigh
  rw [Bool.and_eq_false_iff, decide_eq_false_iff_not, decide_eq_false_iff_not]
  rcases hvalid with h | h <;> omega

/-- No character is half of a pair. -/
theorem joinPairs_points (s : List Char) : joinPairs (s.map Char.toNat) = s := by
  induction s with
  | nil => rfl
  | cons c rest ih =>
    cases rest with
    | nil => simp [joinPairs, ofCodePoint_toNat]
    | cons d rest =>
      rw [List.map_cons, List.map_cons, joinPairs, isHigh_of_char, Bool.false_and,
        if_neg Bool.false_ne_true, ofCodePoint_toNat]
      rw [List.map_cons] at ih
      rw [ih]

end Text

namespace Json

/-! ## Escapes -/

theorem hex4?_hex {n : Nat} (h : n < 0x20) :
    ∃ a b c d, Text.hex 4 n = [a, b, c, d] ∧ hex4? a b c d = some n := by
  let digit (n i : Nat) : Char := (Text.hex 4 n).getD i '0'
  have hall : ∀ n : Fin 0x20,
      Text.hex 4 n = [digit n 0, digit n 1, digit n 2, digit n 3] ∧
        hex4? (digit n 0) (digit n 1) (digit n 2) (digit n 3) = some n.val := by decide
  exact ⟨digit n 0, digit n 1, digit n 2, digit n 3, hall ⟨n, h⟩⟩

/-- An escaped character is read as its code point, if it does not end the text. -/
theorem readText_escapedChar (left : Nat) (c d : Char) (t : List Char) :
    readText left (escapedChar c ++ d :: t) =
      (readText left (d :: t)).map fun (s, rest) => (c.toNat :: s, rest) := by
  unfold escapedChar
  split
  · simp [readText, unescaped?]
  · simp [readText, unescaped?]
  · simp [readText, unescaped?]
  · simp [readText, unescaped?]
  · simp [readText, unescaped?]
  · simp [readText, unescaped?]
  · simp [readText, unescaped?]
  · rename_i hquote hslash _ _ _ _ _
    split
    · rename_i hc
      obtain ⟨a, b, e, f, hhex, hread⟩ := hex4?_hex hc
      rw [hhex]
      show readText left ('\\' :: 'u' :: a :: b :: e :: f :: d :: t) = _
      rw [readText, hread]
    · rename_i hc
      rw [List.singleton_append, readText, if_neg (by omega)]
      · exact hquote
      · exact fun h _ => hslash h
      · exact fun _ _ _ _ _ _ h _ => hslash h
      · exact fun _ h _ => hslash h
      · exact fun _ _ h _ => hslash h

theorem readText_escaped (left : Nat) (s rest : List Char) :
    readText left (s.flatMap escapedChar ++ '"' :: rest) = .ok (s.map Char.toNat, rest) := by
  induction s with
  | nil => simp [readText]
  | cons c s ih =>
    obtain ⟨d, t, ht⟩ : ∃ d t, s.flatMap escapedChar ++ '"' :: rest = d :: t := by
      cases h : s.flatMap escapedChar with
      | nil => exact ⟨_, _, rfl⟩
      | cons d t => exact ⟨d, _, rfl⟩
    rw [List.flatMap_cons, List.append_assoc, ht, readText_escapedChar, ← ht, ih]
    rfl

/-- A quoted text reads back. -/
theorem readQuoted_quoted (s : String) (rest : List Char) :
    readQuoted (quoted s.toList ++ rest) = .ok (s, rest) := by
  have hshape : quoted s.toList ++ rest = '"' :: (s.toList.flatMap escapedChar ++ '"' :: rest) := by
    simp [quoted]
  rw [hshape]
  unfold readQuoted
  simp only [readText_escaped]
  show Except.ok (String.ofList (Text.joinPairs (s.toList.map Char.toNat)), rest) = _
  rw [Text.joinPairs_points, String.ofList_toList]

end Json

end PageBuilder
