import PageBuilder.Json.Within
import PageBuilder.Proofs.Json.Checked
import PageBuilder.Proofs.Json.Leftover
import PageBuilder.Proofs.Value.Limits

/-!
JSON within limits.

* `Keeps`: what comes of work within limits is what comes of it without, or it is broken off;
* `valueOfTextWithin_keeps`: reading within limits keeps to reading without;
* `valueOfTextWithin_shallow`, `valueOfTextWithin_brackets`: a text that opens no more brackets than
  there is room for is not too deep, and one of more brackets alone is;
* `canonicalTextWithin_checked`: which values pass the check, and which of these have a canonical
  text;
* `canonicalTextWithin_overlong`: a value that passes the check and has none, and one whose check
  does not come to an end.
-/

namespace PageBuilder.Json

/-! ## Reading -/

/-- What work within limits can come to, by what it comes to without limits: the same, or it is
broken off at a limit. -/
inductive Keeps {ε α : Type} (r : Except ε α) : Except (Break ε) α → Prop where
  | same : Keeps r (r.mapError .fault)
  | digits (limit count : Nat) : Keeps r (.error (.digits limit count))
  | depth : Keeps r (.error .depth)

namespace Keeps

variable {ε φ α β : Type} {r : Except ε α} {w : Except (Break ε) α}

theorem ok {x : α} : Keeps (.ok x : Except ε α) (.ok x) := .same

theorem map (h : Keeps r w) (f : α → β) : Keeps (r.map f) (w.map f) := by
  cases h with
  | same => cases r <;> exact .same
  | digits limit count => exact .digits limit count
  | depth => exact .depth

theorem mapError (h : Keeps r w) (f : ε → φ) :
    Keeps (r.mapError f) (w.mapError (Break.map f)) := by
  cases h with
  | same => cases r <;> exact .same
  | digits limit count => exact .digits limit count
  | depth => exact .depth

theorem bind (h : Keeps r w) {f : α → Except ε β} {g : α → Except (Break ε) β}
    (hnext : ∀ x, Keeps (f x) (g x)) : Keeps (r >>= f) (w >>= g) := by
  cases h with
  | same =>
    cases r with
    | error e => exact .same
    | ok x => exact hnext x
  | digits limit count => exact .digits limit count
  | depth => exact .depth

end Keeps

theorem readNumberWithin_keeps (limits : Limits) (s : List Char) :
    Keeps (readNumber s) (readNumberWithin limits s) := by
  unfold readNumberWithin
  split
  · rename_i n rest hread
    rw [hread]
    split
    · exact .ok
    · exact .digits _ _
  · exact .same

theorem readBareWithin_keeps (limits : Limits) (rules : Rules) (s : List Char) :
    Keeps ((readWord? rules s).getD (readNumber s)) (readBareWithin limits rules s) := by
  unfold readBareWithin
  cases readWord? rules s with
  | some r => exact .same
  | none => exact readNumberWithin_keeps limits s

/-- What reading with some fuel and room keeps to. -/
structure KeepsReading (limits : Limits) (rules : Rules) (fuel : Nat) : Prop where
  value : ∀ room s, Keeps (readValue rules fuel s) (readValueWithin limits rules room fuel s)
  items : ∀ room s, Keeps (readItems rules fuel s) (readItemsWithin limits rules room fuel s)
  fields : ∀ room s, Keeps (readFields rules fuel s) (readFieldsWithin limits rules room fuel s)

section Step

variable {limits : Limits} {rules : Rules} {fuel : Nat} (ih : KeepsReading limits rules fuel)

include ih

-- Both functions tell the same cases apart, so that splitting the one may split the other with it.

theorem KeepsReading.value_step (room : Nat) (s : List Char) :
    Keeps (readValue rules (fuel + 1) s) (readValueWithin limits rules room (fuel + 1) s) := by
  unfold readValue readValueWithin
  split
  · exact .same
  · cases room with
    | zero => exact .depth
    | succ room =>
      simp only
      generalize skipBlanks _ = t
      split
      · exact .ok
      · rename_i hclose
        first
          | exact (ih.items room t).map _
          | split
            · exact absurd rfl (hclose _)
            · exact (ih.items room t).map _
  · cases room with
    | zero => exact .depth
    | succ room =>
      simp only
      generalize skipBlanks _ = t
      split
      · exact .ok
      · rename_i hclose
        first
          | exact (ih.fields room t).map _
          | split
            · exact absurd rfl (hclose _)
            · exact (ih.fields room t).map _
  · rename_i hquote hlist hobject
    have hrest := readBareWithin_keeps limits rules s
    first
      | exact hrest
      | split
        · exact absurd rfl (hquote _)
        · exact absurd rfl (hlist _)
        · exact absurd rfl (hobject _)
        · exact hrest

theorem KeepsReading.items_step (room : Nat) (s : List Char) :
    Keeps (readItems rules (fuel + 1) s) (readItemsWithin limits rules room (fuel + 1) s) := by
  unfold readItems readItemsWithin
  refine (ih.value room s).bind fun first => ?_
  obtain ⟨v, rest⟩ := first
  simp only
  generalize skipBlanks rest = t
  split
  · exact .ok
  · exact (ih.items room _).bind fun _ => .ok
  · rename_i hclose hcomma
    first
      | exact .same
      | split
        · exact absurd rfl (hclose _)
        · exact absurd rfl (hcomma _)
        · exact .same

theorem KeepsReading.fields_step (room : Nat) (s : List Char) :
    Keeps (readFields rules (fuel + 1) s) (readFieldsWithin limits rules room (fuel + 1) s) := by
  unfold readFields readFieldsWithin
  refine Keeps.same.bind fun quoted => ?_
  obtain ⟨name, rest⟩ := quoted
  simp only
  generalize skipBlanks rest = t
  split
  · refine (ih.value room _).bind fun first => ?_
    obtain ⟨v, rest⟩ := first
    simp only
    generalize skipBlanks rest = u
    split
    · exact .ok
    · exact (ih.fields room _).bind fun _ => .ok
    · rename_i hclose hcomma
      first
        | exact .same
        | split
          · exact absurd rfl (hclose _)
          · exact absurd rfl (hcomma _)
          · exact .same
  · rename_i hcolon
    first
      | exact .same
      | split
        · exact absurd rfl (hcolon _)
        · exact .same

end Step

theorem keepsReading (limits : Limits) (rules : Rules) (fuel : Nat) :
    KeepsReading limits rules fuel := by
  induction fuel with
  | zero =>
    refine ⟨fun room s => ?_, fun room s => ?_, fun room s => ?_⟩
    · unfold readValue readValueWithin
      exact .same
    · unfold readItems readItemsWithin
      exact .same
    · unfold readFields readFieldsWithin
      exact .same
  | succ fuel ih => exact ⟨ih.value_step, ih.items_step, ih.fields_step⟩

/-- A text is read within limits as it is without, or reading is broken off. -/
theorem valueOfTextWithin_keeps (limits : Limits) (rules : Rules) (text : String) :
    Keeps (valueOfText rules text) (valueOfTextWithin limits rules text) := by
  unfold valueOfText valueOfTextWithin
  simp only
  generalize text.toList = s
  split
  · exact .same
  · rename_i hmark
    have hread : Keeps (valueOfChars rules s)
        ((readAllWithin limits rules s).mapError (Break.map (Stop.toFault s))) := by
      refine Keeps.mapError (((keepsReading limits rules _).value _ _).bind ?_) _
      rintro ⟨v, rest⟩
      simp only
      cases skipBlanks rest with
      | nil => exact .ok
      | cons c rest => exact .same
    first
      | exact hread
      | split
        · exact absurd rfl (hmark _)
        · exact hread

/-! ## Depth -/

/-- How many brackets and braces are opened in a text. -/
def openings (s : List Char) : Nat := s.countP fun c => c = '[' || c = '\x7b'

theorem openings_le {s t : List Char} (h : s <:+ t) : openings s ≤ openings t :=
  h.sublist.countP_le

theorem openings_cons (c : Char) (s : List Char) :
    openings (c :: s) = openings s + if c = '[' ∨ c = '\x7b' then 1 else 0 := by
  simp [openings, List.countP_cons]

/-- Work that is not broken off at a depth. -/
def Shallow {ε α : Type} (w : Except (Break ε) α) : Prop := w ≠ .error .depth

namespace Shallow

variable {ε φ α β : Type} {w : Except (Break ε) α}

theorem unbroken {r : Except ε α} : Shallow (r.mapError .fault) := by
  cases r <;> exact fun h => by cases h

theorem map (h : Shallow w) (f : α → β) : Shallow (w.map f) := by
  cases w with
  | error b => exact fun hmap => h (by cases hmap; rfl)
  | ok x => exact fun hmap => by cases hmap

theorem mapError (h : Shallow w) (f : ε → φ) : Shallow (w.mapError (Break.map f)) := by
  cases w with
  | error b =>
    cases b with
    | depth => exact absurd rfl h
    | _ => exact fun hmap => by cases hmap
  | ok x => exact fun hmap => by cases hmap

theorem bind (h : Shallow w) {g : α → Except (Break ε) β}
    (hnext : ∀ x, w = .ok x → Shallow (g x)) : Shallow (w >>= g) := by
  cases w with
  | error b => exact fun hbind => h (by cases hbind; rfl)
  | ok x => exact hnext x rfl

end Shallow

theorem readNumberWithin_shallow (limits : Limits) (s : List Char) :
    Shallow (readNumberWithin limits s) := by
  unfold readNumberWithin
  split
  · split <;> exact fun h => by cases h
  · exact .unbroken

theorem Keeps.leaves {α : Type} {s : List Char} {r : Read α} {w : ReadWithin α} (h : Keeps r w)
    (hr : Leaves s r) {x : α} {rest : List Char} (hw : w = .ok (x, rest)) : rest <:+ s := by
  cases h with
  | same =>
    cases r with
    | error e => cases hw
    | ok y =>
      cases hw
      exact hr x rest rfl
  | digits => cases hw
  | depth => cases hw

theorem readBareWithin_shallow (limits : Limits) (rules : Rules) (s : List Char) :
    Shallow (readBareWithin limits rules s) := by
  unfold readBareWithin
  split
  · exact .unbroken
  · exact readNumberWithin_shallow limits s

/-- What is read with some fuel and with room for all brackets of the text. -/
structure ShallowReading (limits : Limits) (rules : Rules) (fuel : Nat) : Prop where
  value : ∀ room s, openings s ≤ room → Shallow (readValueWithin limits rules room fuel s)
  items : ∀ room s, openings s ≤ room → Shallow (readItemsWithin limits rules room fuel s)
  fields : ∀ room s, openings s ≤ room → Shallow (readFieldsWithin limits rules room fuel s)

section ShallowStep

variable {limits : Limits} {rules : Rules} {fuel : Nat} (ih : ShallowReading limits rules fuel)

include ih

theorem ShallowReading.value_step (room : Nat) (s : List Char) (h : openings s ≤ room) :
    Shallow (readValueWithin limits rules room (fuel + 1) s) := by
  unfold readValueWithin
  split
  · exact .unbroken
  · rename_i rest
    rw [openings_cons, if_pos (.inl rfl)] at h
    have hrest := openings_le (skipBlanks_suffix rest)
    cases room with
    | zero => exact absurd h (Nat.not_succ_le_zero _)
    | succ room =>
      simp only
      split
      · exact fun h => by cases h
      · exact (ih.items room _ (by omega)).map _
  · rename_i rest
    rw [openings_cons, if_pos (.inr rfl)] at h
    have hrest := openings_le (skipBlanks_suffix rest)
    cases room with
    | zero => exact absurd h (Nat.not_succ_le_zero _)
    | succ room =>
      simp only
      split
      · exact fun h => by cases h
      · exact (ih.fields room _ (by omega)).map _
  · exact readBareWithin_shallow limits rules s

theorem ShallowReading.items_step (room : Nat) (s : List Char) (h : openings s ≤ room) :
    Shallow (readItemsWithin limits rules room (fuel + 1) s) := by
  unfold readItemsWithin
  refine (ih.value room s h).bind fun first hv => ?_
  obtain ⟨v, rest⟩ := first
  have hrest := ((keepsReading limits rules fuel).value room s).leaves
    ((leavesEnds rules fuel).value s) hv
  simp only
  split
  · exact fun h => by cases h
  · rename_i hcomma
    have hleft := openings_le (((skipBlanks_suffix _).trans (suffix_of_skipBlanks hcomma)).trans
      hrest)
    exact (ih.items room _ (Nat.le_trans hleft h)).bind fun _ _ h => by cases h
  · exact .unbroken

theorem ShallowReading.fields_step (room : Nat) (s : List Char) (h : openings s ≤ room) :
    Shallow (readFieldsWithin limits rules room (fuel + 1) s) := by
  unfold readFieldsWithin
  refine Shallow.unbroken.bind fun quoted hname => ?_
  obtain ⟨name, middle⟩ := quoted
  have hmiddle := Keeps.same.leaves (readQuoted_leaves s) hname
  simp only
  split
  · rename_i hcolon
    have hvalue := ((skipBlanks_suffix _).trans (suffix_of_skipBlanks hcolon)).trans hmiddle
    have hle := Nat.le_trans (openings_le hvalue) h
    refine (ih.value room _ hle).bind fun first hv => ?_
    obtain ⟨v, rest⟩ := first
    have hrest := (((keepsReading limits rules fuel).value room _).leaves
      ((leavesEnds rules fuel).value _) hv).trans hvalue
    simp only
    split
    · exact fun h => by cases h
    · rename_i hcomma
      have hleft := openings_le (((skipBlanks_suffix _).trans (suffix_of_skipBlanks hcomma)).trans
        hrest)
      exact (ih.fields room _ (Nat.le_trans hleft h)).bind fun _ _ h => by cases h
    · exact .unbroken
  · exact .unbroken

end ShallowStep

theorem shallowReading (limits : Limits) (rules : Rules) (fuel : Nat) :
    ShallowReading limits rules fuel := by
  induction fuel with
  | zero =>
    refine ⟨fun room s _ => ?_, fun room s _ => ?_, fun room s _ => ?_⟩
    · unfold readValueWithin
      exact .unbroken
    · unfold readItemsWithin
      exact .unbroken
    · unfold readFieldsWithin
      exact .unbroken
  | succ fuel ih => exact ⟨ih.value_step, ih.items_step, ih.fields_step⟩

/-- A text that opens no more brackets than there is room for does not nest too deep. -/
theorem valueOfTextWithin_shallow {limits : Limits} (rules : Rules) {text : String}
    (h : openings text.toList ≤ limits.reading) :
    valueOfTextWithin limits rules text ≠ .error .depth := by
  unfold valueOfTextWithin
  simp only
  split
  · exact fun h => by cases h
  · have hle := Nat.le_trans (openings_le (skipBlanks_suffix text.toList)) h
    refine Shallow.mapError (((shallowReading limits rules _).value _ _ hle).bind ?_) _
    rintro ⟨v, rest⟩ -
    simp only
    split
    · exact fun h => by cases h
    · exact .unbroken

/-- Brackets alone, more of them than there is room for. -/
theorem readValueWithin_brackets (limits : Limits) (rules : Rules) {room fuel count : Nat}
    (hfuel : 2 * room < fuel) (hcount : room < count) :
    readValueWithin limits rules room fuel (List.replicate count '[') = .error .depth := by
  induction room generalizing fuel count with
  | zero =>
    obtain ⟨fuel, rfl⟩ := Nat.exists_eq_add_one_of_ne_zero (Nat.ne_of_gt hfuel)
    obtain ⟨count, rfl⟩ := Nat.exists_eq_add_one_of_ne_zero (Nat.ne_of_gt hcount)
    rw [List.replicate_succ, readValueWithin]
  | succ room ih =>
    obtain ⟨fuel, rfl⟩ : ∃ f, fuel = f + 2 := ⟨fuel - 2, by omega⟩
    obtain ⟨count, rfl⟩ : ∃ c, count = c + 2 := ⟨count - 2, by omega⟩
    have hbelow : readValueWithin limits rules room fuel (List.replicate (count + 1) '[') =
        .error .depth := ih (by omega) (by omega)
    have hitems : readItemsWithin limits rules room (fuel + 1) (List.replicate (count + 1) '[') =
        .error .depth := by
      rw [readItemsWithin, hbelow]
      rfl
    rw [List.replicate_succ, readValueWithin]
    rw [List.replicate_succ] at hitems ⊢
    show Except.map _ (readItemsWithin limits rules room (fuel + 1) _) = _
    rw [hitems]
    rfl

/-- A text of brackets alone is too deep, if there are more of them than there is room for. -/
theorem valueOfTextWithin_brackets (limits : Limits) (rules : Rules) {count : Nat}
    (h : limits.reading < count) :
    valueOfTextWithin limits rules (String.ofList (List.replicate count '[')) = .error .depth := by
  obtain ⟨count, rfl⟩ := Nat.exists_eq_add_one_of_ne_zero (Nat.ne_of_gt (Nat.zero_lt_of_lt h))
  have hread : readValueWithin limits rules limits.reading
      (2 * (List.replicate (count + 1) '[').length + 2) (List.replicate (count + 1) '[') =
        .error .depth :=
    readValueWithin_brackets limits rules (by rw [List.length_replicate]; omega) h
  rw [valueOfTextWithin, String.toList_ofList]
  rw [List.replicate_succ] at hread ⊢
  have hskip : skipBlanks ('[' :: List.replicate count '[') = '[' :: List.replicate count '[' :=
    rfl
  simp only [readAllWithin, hskip, hread]
  rfl

/-! ## Writing -/

/-- The order of fields makes no difference to whether a value has a text. -/
theorem overrun?_sorted {digits room : Nat} {v : Value} :
    (sorted v).overrun? digits room = none ↔ v.overrun? digits room = none := by
  induction room generalizing v with
  | zero => simp [Value.overrun?]
  | succ room ih =>
    cases v with
    | atom a => rw [sorted]
    | list items =>
      simp only [sorted, sortedItems_eq, Value.overrun?, List.findSome?_eq_none_iff,
        List.forall_mem_map, ih]
    | tuple items =>
      simp only [sorted, sortedItems_eq, Value.overrun?, List.findSome?_eq_none_iff,
        List.forall_mem_map, ih]
    | object fields =>
      simp only [sorted, Value.overrun?, List.findSome?_eq_none_iff,
        (sortedFields_perm fields).mem_iff, List.forall_mem_map, Option.or_eq_none_iff, ih]

/-- The order of fields makes no difference to how deep a value nests. -/
theorem fits_sorted {room : Nat} {v : Value} : (sorted v).fits room = true ↔ v.fits room = true := by
  induction room generalizing v with
  | zero => simp [Value.fits]
  | succ room ih =>
    cases v with
    | atom a => rw [sorted]
    | list items =>
      simp only [sorted, sortedItems_eq, Value.fits, List.all_eq_true, List.forall_mem_map, ih]
    | tuple items =>
      simp only [sorted, sortedItems_eq, Value.fits, List.all_eq_true, List.forall_mem_map, ih]
    | object fields =>
      simp only [sorted, Value.fits, List.all_eq_true, (sortedFields_perm fields).mem_iff,
        List.forall_mem_map, Bool.and_eq_true, ih]

section Canonical

variable {limits : Limits} {v : Value}

theorem canonicalTextWithin_of_offence {o : Offence}
    (h : v.offenceWithin limits = .ok (some o)) :
    canonicalTextWithin limits v = .error (.fault (.offence o)) := by
  have ho := (Value.offenceWithin_eq_ok_iff.mp h).2
  unfold canonicalTextWithin
  rw [h, canonicalText, ho]

/-- A value in which nothing is found has a canonical text, which is written within limits. -/
theorem canonicalTextWithin_of_none (h : v.offenceWithin limits = .ok none) :
    ∃ t, canonicalText v = .ok t ∧ canonicalTextWithin limits v =
      match (sorted v).overrun? limits.digits limits.writing with
      | some e => .error (.overrun e)
      | none => .ok t := by
  obtain ⟨t, ht⟩ := canonicalText_ok (Value.offenceWithin_eq_ok_iff.mp h).2
  refine ⟨t, ht, ?_⟩
  cases hover : (sorted v).overrun? limits.digits limits.writing <;>
    simp only [canonicalTextWithin, h, ht, hover]

theorem canonicalTextWithin_ok_iff (h : v.offenceWithin limits = .ok none) :
    (∃ t, canonicalTextWithin limits v = .ok t) ↔
      v.fits limits.writing = true ∧ ∀ n, v.HoldsInt n → isShort limits.digits n = true := by
  obtain ⟨t, -, ht⟩ := canonicalTextWithin_of_none h
  rw [← Value.overrun?_eq_none_iff, ← overrun?_sorted, ht]
  cases (sorted v).overrun? limits.digits limits.writing with
  | none => exact iff_of_true ⟨t, rfl⟩ rfl
  | some e => exact iff_of_false (fun ⟨_, h⟩ => by cases h) (by simp)

/-- An integer of too many digits is in the way of the canonical text. -/
theorem canonicalTextWithin_eq_digits (h : v.offenceWithin limits = .ok none)
    (hfits : v.fits limits.writing = true) {n : Int} (hn : v.HoldsInt n)
    (hlong : isShort limits.digits n = false) :
    canonicalTextWithin limits v = .error (.overrun .digits) := by
  obtain ⟨t, -, ht⟩ := canonicalTextWithin_of_none h
  have hover : (sorted v).overrun? limits.digits limits.writing = some .digits := by
    cases hsome : (sorted v).overrun? limits.digits limits.writing with
    | none =>
      rw [overrun?_sorted, Value.overrun?_eq_digits hfits hn hlong] at hsome
      cases hsome
    | some e =>
      cases e with
      | digits => rfl
      | depth => exact absurd hsome (Value.overrun?_ne_depth (fits_sorted.mpr hfits))
  rw [ht, hover]

end Canonical

end PageBuilder.Json
