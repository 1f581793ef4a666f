import PageBuilder.Json.Reader
import PageBuilder.Json.Writer
import PageBuilder.Proofs.Results
import PageBuilder.Proofs.Value.Plain

/-!
What is read from JSON has a text and is plain, whatever it was read from; but not all of it can be
written again.

* `read_spelled`: values, items and fields that are read have a text, by induction on the fuel;
* `valueOfText_spelled`, `valueOfOctets_spelled`: the same for whole texts;
* `offence?_of_write`: what is written without words for infinite numbers is JSON-like.
-/

namespace PageBuilder.Json

/-! ## Atoms -/

theorem number_spelled (negative : Bool) (whole part : List Char) (exponent : Option Int) :
    (number negative whole part exponent).Spelled := by
  unfold number
  split
  · exact .atom (.inl rfl)
  · exact .atom (.inr ⟨_, rfl⟩)

theorem readUnsigned_spelled {negative : Bool} {s rest : List Char} {v : Value}
    (h : readUnsigned negative s = some (v, rest)) : v.Spelled := by
  unfold readUnsigned at h
  split at h
  · cases h
  · cases h
    exact number_spelled ..

theorem readNumber_spelled {s rest : List Char} {v : Value} (h : readNumber s = .ok (v, rest)) :
    v.Spelled := by
  unfold readNumber at h
  simp only at h
  split at h
  · rename_i hfound
    cases h
    split at hfound <;> exact readUnsigned_spelled hfound
  · cases h

theorem readWord?_spelled {rules : Rules} {s rest : List Char} {v : Value}
    (h : readWord? rules s = some (.ok (v, rest))) : v.Spelled := by
  unfold readWord? at h
  rcases Option.or_eq_some_iff.mp h with hplain | ⟨-, hspecial⟩
  · obtain ⟨⟨word, w⟩, hmem, hw⟩ := List.exists_of_findSome?_eq_some hplain
    obtain ⟨t, -, heq⟩ := Option.map_eq_some_iff.mp hw
    cases heq
    simp only [words, List.mem_cons, Prod.mk.injEq, List.not_mem_nil, or_false] at hmem
    rcases hmem with ⟨-, rfl⟩ | ⟨-, rfl⟩ | ⟨-, rfl⟩ <;> exact .atom (.inl rfl)
  · obtain ⟨⟨word, x⟩, -, hx⟩ := List.exists_of_findSome?_eq_some hspecial
    obtain ⟨t, -, heq⟩ := Option.map_eq_some_iff.mp hx
    split at heq
    · cases heq
      exact .atom (.inr ⟨x, rfl⟩)
    · cases heq

/-! ## Values -/

/-- What is read with some fuel has a text. -/
structure SpelledReads (rules : Rules) (fuel : Nat) : Prop where
  value : ∀ {s v rest}, readValue rules fuel s = .ok (v, rest) → v.Spelled
  items : ∀ {s items rest}, readItems rules fuel s = .ok (items, rest) → ∀ v ∈ items, v.Spelled
  fields : ∀ {s fields rest}, readFields rules fuel s = .ok (fields, rest) →
    ∀ f ∈ fields, (∃ name, f.1 = .text name) ∧ f.2.Spelled

section Step

variable {rules : Rules} {fuel : Nat}

theorem SpelledReads.value_step (ih : SpelledReads rules fuel) {s rest : List Char} {v : Value}
    (h : readValue rules (fuel + 1) s = .ok (v, rest)) : v.Spelled := by
  unfold readValue at h
  split at h
  · obtain ⟨⟨t, rest'⟩, -, heq⟩ := map_eq_ok_iff.mp h
    cases heq
    exact .atom (.inl rfl)
  · split at h
    · cases h
      exact .list fun v hv => by cases hv
    · obtain ⟨⟨items, rest'⟩, hitems, heq⟩ := map_eq_ok_iff.mp h
      cases heq
      exact .list (ih.items hitems)
  · split at h
    · cases h
      exact Value.madeOf_ofPairs (List.forall_mem_nil _)
    · obtain ⟨⟨fields, rest'⟩, hfields, heq⟩ := map_eq_ok_iff.mp h
      cases heq
      exact Value.madeOf_ofPairs (ih.fields hfields)
  · cases hword : readWord? rules s with
    | none =>
      rw [hword] at h
      exact readNumber_spelled h
    | some r =>
      rw [hword] at h
      cases (h : r = .ok (v, rest))
      exact readWord?_spelled hword

theorem SpelledReads.items_step (ih : SpelledReads rules fuel) {s rest : List Char}
    {items : List Value} (h : readItems rules (fuel + 1) s = .ok (items, rest)) :
    ∀ v ∈ items, v.Spelled := by
  unfold readItems at h
  obtain ⟨⟨v, after⟩, hv, h⟩ := bind_eq_ok_iff.mp h
  simp only at h
  split at h
  · cases h
    rw [List.forall_mem_singleton]
    exact ih.value hv
  · obtain ⟨⟨others, left⟩, hothers, h⟩ := bind_eq_ok_iff.mp h
    cases h
    rw [List.forall_mem_cons]
    exact ⟨ih.value hv, ih.items hothers⟩
  · cases h

theorem SpelledReads.fields_step (ih : SpelledReads rules fuel) {s rest : List Char}
    {fields : List (Key × Value)} (h : readFields rules (fuel + 1) s = .ok (fields, rest)) :
    ∀ f ∈ fields, (∃ name, f.1 = .text name) ∧ f.2.Spelled := by
  unfold readFields at h
  obtain ⟨⟨name, middle⟩, -, h⟩ := bind_eq_ok_iff.mp h
  simp only at h
  split at h
  · obtain ⟨⟨v, after⟩, hv, h⟩ := bind_eq_ok_iff.mp h
    simp only at h
    split at h
    · cases h
      rw [List.forall_mem_singleton]
      exact ⟨⟨_, rfl⟩, ih.value hv⟩
    · obtain ⟨⟨others, left⟩, hothers, h⟩ := bind_eq_ok_iff.mp h
      cases h
      rw [List.forall_mem_cons]
      exact ⟨⟨⟨_, rfl⟩, ih.value hv⟩, ih.fields hothers⟩
    · cases h
  · cases h

end Step

/-- Whatever is read has a text. -/
theorem read_spelled (rules : Rules) (fuel : Nat) : SpelledReads rules fuel := by
  induction fuel with
  | zero =>
    refine ⟨fun h => ?_, fun h => ?_, fun h => ?_⟩
    · unfold readValue at h
      cases h
    · unfold readItems at h
      cases h
    · unfold readFields at h
      cases h
  | succ fuel ih => exact ⟨ih.value_step, ih.items_step, ih.fields_step⟩

/-! ## Texts -/

section Texts

variable {rules : Rules} {v : Value}

theorem valueOfChars_spelled {s : List Char} (h : valueOfChars rules s = .ok v) : v.Spelled := by
  obtain ⟨⟨w, rest⟩, hw, h⟩ := bind_eq_ok_iff.mp (mapError_eq_ok_iff.mp h)
  simp only at h
  split at h
  · cases h
    exact (read_spelled rules _).value hw
  · cases h

theorem valueOfText_spelled {text : String} (h : valueOfText rules text = .ok v) : v.Spelled := by
  unfold valueOfText at h
  simp only at h
  split at h
  · cases h
  · exact valueOfChars_spelled h

theorem valueOfOctets_spelled {octets : List UInt8} (h : valueOfOctets rules octets = .ok v) :
    v.Spelled := by
  unfold valueOfOctets at h
  split at h
  · cases h
  · exact valueOfChars_spelled h

theorem valueOfText_plain {text : String} (h : valueOfText rules text = .ok v) : v.Plain :=
  (valueOfText_spelled h).plain

theorem valueOfOctets_plain {octets : List UInt8} (h : valueOfOctets rules octets = .ok v) :
    v.Plain := (valueOfOctets_spelled h).plain

end Texts

/-! ## Writing -/

section Write

variable {style : Style} {depth : Nat}

theorem exists_of_mem_writeItems {items : List Value} {parts : List (List Char)}
    (h : writeItems style depth items = .ok parts) :
    ∀ v ∈ items, ∃ part, write style depth v = .ok part := by
  induction items generalizing parts with
  | nil => exact List.forall_mem_nil _
  | cons v rest ih =>
    obtain ⟨part, hpart, h⟩ := bind_eq_ok_iff.mp h
    obtain ⟨others, hothers, -⟩ := bind_eq_ok_iff.mp h
    exact List.forall_mem_cons.mpr ⟨⟨part, hpart⟩, ih hothers⟩

theorem exists_of_mem_writeFields {fields : Fields} {parts : List (List Char)}
    (h : writeFields style depth fields = .ok parts) :
    ∀ f ∈ fields, ∃ part, write style depth f.2 = .ok part := by
  induction fields generalizing parts with
  | nil => exact List.forall_mem_nil _
  | cons f rest ih =>
    obtain ⟨name, -, h⟩ := bind_eq_ok_iff.mp h
    obtain ⟨part, hpart, h⟩ := bind_eq_ok_iff.mp h
    obtain ⟨others, hothers, -⟩ := bind_eq_ok_iff.mp h
    exact List.forall_mem_cons.mpr ⟨⟨part, hpart⟩, ih hothers⟩

/-- Of the values that have a text only JSON-like ones are written in a style without words for
numbers that are not finite. -/
theorem offence?_of_write (hstyle : style.allowsNonFinite = false) {v : Value} (h : v.Spelled)
    {text : List Char} (hw : write style depth v = .ok text) : v.offence? = none := by
  induction h generalizing depth text with
  | @atom a ha =>
    rw [Value.offence?_atom]
    rcases ha with ha | ⟨x, rfl⟩
    · exact ha
    · change doubleText style x = .ok text at hw
      unfold doubleText at hw
      rw [hstyle, Bool.or_false] at hw
      split at hw
      · rename_i hx
        rw [Atom.offence?, if_pos hx]
      · cases hw
  | list _ ih =>
    obtain ⟨parts, hparts, -⟩ := map_eq_ok_iff.mp hw
    rw [Value.offence?, Value.itemsOffence?_eq_none_iff]
    intro v hv
    obtain ⟨part, hpart⟩ := exists_of_mem_writeItems hparts v hv
    exact ih v hv hpart
  | object _ hnamed _ ih =>
    obtain ⟨parts, hparts, -⟩ := map_eq_ok_iff.mp hw
    rw [Value.offence?_object]
    intro f hf
    obtain ⟨part, hpart⟩ := exists_of_mem_writeFields hparts f hf
    exact ⟨hnamed f hf, ih f hf hpart⟩

end Write

end PageBuilder.Json
