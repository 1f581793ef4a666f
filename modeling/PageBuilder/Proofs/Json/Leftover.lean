import PageBuilder.Json.Reader
import PageBuilder.Proofs.Results

/-!
What reading leaves of a text is an end of it.

* `Leaves`: a reading whose leftover is an end of the text;
* `readValue_leaves`: this holds of values, by induction on the fuel.
-/

namespace PageBuilder.Json

/-- What is left over is an end of the text that is read. -/
def Leaves {α : Type} (s : List Char) (r : Read α) : Prop :=
  ∀ x rest, r = .ok (x, rest) → rest <:+ s

theorem Leaves.map {α β : Type} {s : List Char} {r : Read α} (h : Leaves s r) (f : α → β) :
    Leaves s (r.map fun (x, rest) => (f x, rest)) := by
  intro y rest hr
  obtain ⟨⟨x, _⟩, hx, heq⟩ := map_eq_ok_iff.mp hr
  cases heq
  exact h x _ hx

theorem skipBlanks_suffix (s : List Char) : skipBlanks s <:+ s := List.dropWhile_suffix _

theorem suffix_of_skipBlanks {c : Char} {s rest : List Char} (h : skipBlanks s = c :: rest) :
    rest <:+ s :=
  (List.suffix_cons c rest).trans (h ▸ skipBlanks_suffix s)

/-! ## Texts, numbers and words -/

theorem readText_leaves (left : Nat) (s : List Char) : Leaves s (readText left s) := by
  intro points rest h
  fun_induction readText left s generalizing points with
  | case1 => cases h
  | case2 rest =>
    cases h
    exact List.suffix_cons ..
  | case3 => cases h
  | case4 a b c d e rest' n _ ih =>
    obtain ⟨_, hx, heq⟩ := map_eq_ok_iff.mp h
    cases heq
    exact (ih _ hx).trans (List.suffix_append ['\\', 'u', a, b, c, d] _)
  | case5 => cases h
  | case6 => cases h
  | case7 c rest' _ _ d _ ih =>
    obtain ⟨_, hx, heq⟩ := map_eq_ok_iff.mp h
    cases heq
    exact (ih _ hx).trans (List.suffix_append ['\\', c] _)
  | case8 => cases h
  | case9 => cases h
  | case10 c rest' _ _ _ _ _ _ ih =>
    obtain ⟨_, hx, heq⟩ := map_eq_ok_iff.mp h
    cases heq
    exact (ih _ hx).trans (List.suffix_cons ..)

theorem readQuoted_leaves (s : List Char) : Leaves s (readQuoted s) := by
  unfold readQuoted
  split
  · intro t rest h
    obtain ⟨⟨points, rest'⟩, hx, heq⟩ := map_eq_ok_iff.mp h
    cases heq
    exact (readText_leaves _ _ _ _ hx).trans (List.suffix_cons ..)
  · intro t rest h
    cases h

theorem splitDigits_suffix (s : List Char) : (splitDigits s).2 <:+ s := List.dropWhile_suffix _

theorem readWhole_suffix {s whole rest : List Char} (h : readWhole s = some (whole, rest)) :
    rest <:+ s := by
  unfold readWhole at h
  split at h
  · cases h
    exact List.suffix_cons ..
  · split at h
    · cases h
      exact List.dropWhile_suffix _
    · cases h
  · cases h

theorem readFraction_suffix (s : List Char) : (readFraction s).2 <:+ s := by
  unfold readFraction
  split
  · split
    · exact List.suffix_refl _
    · exact (splitDigits_suffix _).trans (List.suffix_cons ..)
  · exact List.suffix_refl _

theorem readExponent_suffix (s : List Char) : (readExponent s).2 <:+ s := by
  unfold readExponent
  split
  · rename_i c rest
    split
    · split
      rename_i negative t hsign
      have ht : t <:+ c :: rest := by
        split at hsign
        · cases hsign
          exact List.suffix_append [c, '-'] _
        · cases hsign
          exact List.suffix_append [c, '+'] _
        · cases hsign
          exact List.suffix_cons ..
      simp only
      split
      · exact List.suffix_refl _
      · exact (splitDigits_suffix t).trans ht
    · exact List.suffix_refl _
  · exact List.suffix_refl _

theorem readUnsigned_suffix {negative : Bool} {s rest : List Char} {v : Value}
    (h : readUnsigned negative s = some (v, rest)) : rest <:+ s := by
  unfold readUnsigned at h
  split at h
  · cases h
  · rename_i whole after hwhole
    cases h
    exact ((readExponent_suffix _).trans (readFraction_suffix _)).trans (readWhole_suffix hwhole)

theorem readNumber_leaves (s : List Char) : Leaves s (readNumber s) := by
  intro v rest h
  unfold readNumber at h
  simp only at h
  split at h
  · rename_i hfound
    cases h
    split at hfound
    · exact (readUnsigned_suffix hfound).trans (List.suffix_cons ..)
    · exact readUnsigned_suffix hfound
  · cases h

theorem afterWord?_suffix {word : String} {s rest : List Char} (h : afterWord? word s = some rest) :
    rest <:+ s := by
  unfold afterWord? at h
  split at h
  · cases h
    exact List.drop_suffix ..
  · cases h

theorem readWord?_leaves {rules : Rules} {s : List Char} {r : Read Value}
    (h : readWord? rules s = some r) : Leaves s r := by
  rintro v rest rfl
  unfold readWord? at h
  rcases Option.or_eq_some_iff.mp h with hplain | ⟨-, hspecial⟩
  · obtain ⟨⟨word, w⟩, -, hw⟩ := List.exists_of_findSome?_eq_some hplain
    obtain ⟨t, ht, heq⟩ := Option.map_eq_some_iff.mp hw
    cases heq
    exact afterWord?_suffix ht
  · obtain ⟨⟨word, x⟩, -, hx⟩ := List.exists_of_findSome?_eq_some hspecial
    obtain ⟨t, ht, heq⟩ := Option.map_eq_some_iff.mp hx
    split at heq
    · cases heq
      exact afterWord?_suffix ht
    · cases heq

/-! ## Values -/

/-- What reading with some fuel leaves over. -/
structure LeavesEnds (rules : Rules) (fuel : Nat) : Prop where
  value : ∀ s, Leaves s (readValue rules fuel s)
  items : ∀ s, Leaves s (readItems rules fuel s)
  fields : ∀ s, Leaves s (readFields rules fuel s)

section Step

variable {rules : Rules} {fuel : Nat} (ih : LeavesEnds rules fuel)

include ih

theorem LeavesEnds.value_step (s : List Char) : Leaves s (readValue rules (fuel + 1) s) := by
  unfold readValue
  split
  · exact (readQuoted_leaves _).map _
  · intro v rest h
    split at h
    · rename_i hclose
      cases h
      exact (suffix_of_skipBlanks hclose).trans (List.suffix_cons ..)
    · obtain ⟨⟨items, rest'⟩, hx, heq⟩ := map_eq_ok_iff.mp h
      cases heq
      exact ((ih.items _ _ _ hx).trans (skipBlanks_suffix _)).trans (List.suffix_cons ..)
  · intro v rest h
    split at h
    · rename_i hclose
      cases h
      exact (suffix_of_skipBlanks hclose).trans (List.suffix_cons ..)
    · obtain ⟨⟨fields, rest'⟩, hx, heq⟩ := map_eq_ok_iff.mp h
      cases heq
      exact ((ih.fields _ _ _ hx).trans (skipBlanks_suffix _)).trans (List.suffix_cons ..)
  · cases hword : readWord? rules s with
    | none => exact readNumber_leaves s
    | some r => exact readWord?_leaves hword

theorem LeavesEnds.items_step (s : List Char) : Leaves s (readItems rules (fuel + 1) s) := by
  intro items rest h
  unfold readItems at h
  obtain ⟨⟨v, after⟩, hv, h⟩ := bind_eq_ok_iff.mp h
  have hafter := ih.value _ _ _ hv
  simp only at h
  split at h
  · rename_i hclose
    cases h
    exact (suffix_of_skipBlanks hclose).trans hafter
  · rename_i hcomma
    obtain ⟨⟨others, left⟩, hothers, h⟩ := bind_eq_ok_iff.mp h
    cases h
    exact (((ih.items _ _ _ hothers).trans (skipBlanks_suffix _)).trans
      (suffix_of_skipBlanks hcomma)).trans hafter
  · cases h

theorem LeavesEnds.fields_step (s : List Char) : Leaves s (readFields rules (fuel + 1) s) := by
  intro fields rest h
  unfold readFields at h
  obtain ⟨⟨name, middle⟩, hname, h⟩ := bind_eq_ok_iff.mp h
  have hmiddle := readQuoted_leaves _ _ _ hname
  simp only at h
  split at h
  · rename_i hcolon
    obtain ⟨⟨v, after⟩, hv, h⟩ := bind_eq_ok_iff.mp h
    have hafter := (((ih.value _ _ _ hv).trans (skipBlanks_suffix _)).trans
      (suffix_of_skipBlanks hcolon)).trans hmiddle
    simp only at h
    split at h
    · rename_i hclose
      cases h
      exact (suffix_of_skipBlanks hclose).trans hafter
    · rename_i hcomma
      obtain ⟨⟨others, left⟩, hothers, h⟩ := bind_eq_ok_iff.mp h
      cases h
      exact (((ih.fields _ _ _ hothers).trans (skipBlanks_suffix _)).trans
        (suffix_of_skipBlanks hcomma)).trans hafter
    · cases h
  · cases h

end Step

theorem leavesEnds (rules : Rules) (fuel : Nat) : LeavesEnds rules fuel := by
  induction fuel with
  | zero =>
    refine ⟨fun s _ _ h => ?_, fun s _ _ h => ?_, fun s _ _ h => ?_⟩
    · unfold readValue at h
      cases h
    · unfold readItems at h
      cases h
    · unfold readFields at h
      cases h
  | succ fuel ih => exact ⟨ih.value_step, ih.items_step, ih.fields_step⟩

end PageBuilder.Json
