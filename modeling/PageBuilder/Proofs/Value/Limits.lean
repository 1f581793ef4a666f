import PageBuilder.Limits
import PageBuilder.Proofs.Value.SameJson

/-!
Which values are within limits.

* `Value.HoldsInt`: an integer that stands somewhere in a value, in a name too;
* `Value.overrun?_eq_none_iff`: a value has a text if it nests no deeper than the limit and all
  integers in it are short;
* `Value.offenceWithin_of_fits`, `Value.offenceWithin_eq_ok_none_iff`: a check of a value that nests
  no deeper than the limit comes to its end, and one that finds nothing has seen all of the value.
-/

namespace PageBuilder

theorem Atom.overrun?_eq_none {digits : Nat} {a : Atom} :
    a.overrun? digits = none ↔ ∀ n, a = .int n → isShort digits n = true := by
  cases a <;> simp [Atom.overrun?]

namespace Value

/-- An integer that stands in a value, as an atom or in a name, at any depth. -/
inductive HoldsInt (n : Int) : Value → Prop where
  | here : HoldsInt n (.int n)
  | item {v w : Value} {items : List Value} (members : v.items? = some items) (mem : w ∈ items)
      (holds : HoldsInt n w) : HoldsInt n v
  | name {fields : Fields} {f : Key × Value} (mem : f ∈ fields)
      (holds : HoldsInt n f.1.toValue) : HoldsInt n (.object fields)
  | field {fields : Fields} {f : Key × Value} (mem : f ∈ fields) (holds : HoldsInt n f.2) :
      HoldsInt n (.object fields)

variable {digits room : Nat} {v : Value} {n : Int}

theorem holdsInt_atom_iff {a : Atom} : (atom a).HoldsInt n ↔ a = .int n := by
  constructor
  · intro h
    cases h with
    | here => rfl
    | item members _ _ => cases members
  · rintro rfl
    exact .here

theorem holdsInt_iff_of_items {items : List Value} (h : v.items? = some items) :
    v.HoldsInt n ↔ ∃ w ∈ items, w.HoldsInt n := by
  constructor
  · intro hn
    cases hn with
    | here => cases h
    | item members mem holds =>
      cases h.symm.trans members
      exact ⟨_, mem, holds⟩
    | name => cases h
    | field => cases h
  · rintro ⟨w, hw, hn⟩
    exact .item h hw hn

theorem holdsInt_object_iff {fields : Fields} :
    (object fields).HoldsInt n ↔ ∃ f ∈ fields, f.1.toValue.HoldsInt n ∨ f.2.HoldsInt n := by
  constructor
  · intro h
    cases h with
    | item members _ _ => cases members
    | name mem holds => exact ⟨_, mem, .inl holds⟩
    | field mem holds => exact ⟨_, mem, .inr holds⟩
  · rintro ⟨f, hf, h | h⟩
    · exact .name hf h
    · exact .field hf h

/-! ## Texts of values -/

theorem overrun?_of_items {items : List Value} (h : v.items? = some items) :
    v.overrun? digits (room + 1) = items.findSome? (overrun? digits room) := by
  rcases items?_eq_some_iff.mp h with rfl | rfl
  · rfl
  · rfl

theorem fits_of_items {items : List Value} (h : v.items? = some items) :
    v.fits (room + 1) = items.all (fits room) := by
  rcases items?_eq_some_iff.mp h with rfl | rfl
  · rfl
  · rfl

theorem halt?_of_items {items : List Value} (h : v.items? = some items) :
    v.halt? (room + 1) = items.findSome? (halt? room) := by
  rcases items?_eq_some_iff.mp h with rfl | rfl
  · rfl
  · rfl

/-- A value is an atom, a sequence, or an object. -/
theorem kinds (v : Value) : (∃ a, v = .atom a) ∨ (∃ items, v.items? = some items) ∨
    ∃ fields, v = .object fields := by
  cases v with
  | atom a => exact .inl ⟨a, rfl⟩
  | list items => exact .inr (.inl ⟨items, rfl⟩)
  | tuple items => exact .inr (.inl ⟨items, rfl⟩)
  | object fields => exact .inr (.inr ⟨fields, rfl⟩)

/-- A value has a text if it nests no deeper than the limit and all integers in it are short. -/
theorem overrun?_eq_none_iff :
    v.overrun? digits room = none ↔
      v.fits room = true ∧ ∀ n, v.HoldsInt n → isShort digits n = true := by
  induction room generalizing v with
  | zero => simp [overrun?, fits]
  | succ room ih =>
    rcases v.kinds with ⟨a, rfl⟩ | ⟨items, hitems⟩ | ⟨fields, rfl⟩
    · rw [overrun?, Atom.overrun?_eq_none]
      simp only [fits, true_and, holdsInt_atom_iff]
    · rw [overrun?_of_items hitems, fits_of_items hitems, List.findSome?_eq_none_iff,
        List.all_eq_true]
      simp only [ih, holdsInt_iff_of_items hitems]
      constructor
      · intro h
        exact ⟨fun w hw => (h w hw).1, fun n ⟨w, hw, hn⟩ => (h w hw).2 n hn⟩
      · rintro ⟨hfits, hshort⟩ w hw
        exact ⟨hfits w hw, fun n hn => hshort n ⟨w, hw, hn⟩⟩
    · rw [overrun?, fits, List.findSome?_eq_none_iff, List.all_eq_true]
      simp only [Option.or_eq_none_iff, ih, holdsInt_object_iff, Bool.and_eq_true]
      constructor
      · intro h
        refine ⟨fun f hf => ⟨(h f hf).1.1, (h f hf).2.1⟩, ?_⟩
        rintro n ⟨f, hf, hn | hn⟩
        · exact (h f hf).1.2 n hn
        · exact (h f hf).2.2 n hn
      · rintro ⟨hfits, hshort⟩ f hf
        exact ⟨⟨(hfits f hf).1, fun n hn => hshort n ⟨f, hf, .inl hn⟩⟩,
          (hfits f hf).2, fun n hn => hshort n ⟨f, hf, .inr hn⟩⟩

/-- A value that nests no deeper than the limit is not too deep for a text. -/
theorem overrun?_ne_depth (h : v.fits room = true) : v.overrun? digits room ≠ some .depth := by
  induction room generalizing v with
  | zero => simp [fits] at h
  | succ room ih =>
    intro hover
    rcases v.kinds with ⟨a, rfl⟩ | ⟨items, hitems⟩ | ⟨fields, rfl⟩
    · rw [overrun?] at hover
      unfold Atom.overrun? at hover
      split at hover
      · split at hover <;> cases hover
      · cases hover
    · rw [fits_of_items hitems, List.all_eq_true] at h
      rw [overrun?_of_items hitems] at hover
      obtain ⟨w, hw, hdepth⟩ := List.exists_of_findSome?_eq_some hover
      exact ih (h w hw) hdepth
    · rw [fits, List.all_eq_true] at h
      rw [overrun?] at hover
      obtain ⟨f, hf, hdepth⟩ := List.exists_of_findSome?_eq_some hover
      have hfits := h f hf
      rw [Bool.and_eq_true] at hfits
      rcases Option.or_eq_some_iff.mp hdepth with hname | ⟨-, hvalue⟩
      · exact ih hfits.1 hname
      · exact ih hfits.2 hvalue

/-- In a value that nests no deeper than the limit, an integer of too many digits is in the way of
a text. -/
theorem overrun?_eq_digits (h : v.fits room = true) (hn : v.HoldsInt n)
    (hlong : isShort digits n = false) : v.overrun? digits room = some .digits := by
  cases hover : v.overrun? digits room with
  | none =>
    have hshort := (overrun?_eq_none_iff.mp hover).2 n hn
    rw [hlong] at hshort
    cases hshort
  | some e =>
    cases e with
    | digits => rfl
    | depth => exact absurd hover (overrun?_ne_depth h)

/-! ## Parts of values -/

theorem fits_succ (h : v.fits room = true) : v.fits (room + 1) = true := by
  induction room generalizing v with
  | zero => simp [fits] at h
  | succ room ih =>
    rcases v.kinds with ⟨a, rfl⟩ | ⟨items, hitems⟩ | ⟨fields, rfl⟩
    · rfl
    · rw [fits_of_items hitems, List.all_eq_true] at h ⊢
      exact fun w hw => ih (h w hw)
    · rw [fits, List.all_eq_true] at h ⊢
      intro f hf
      have hfits := h f hf
      rw [Bool.and_eq_true] at hfits ⊢
      exact ⟨ih hfits.1, ih hfits.2⟩

section Parts

variable (h : v.overrun? digits room = none)

include h

theorem exists_room : ∃ less, room = less + 1 := by
  cases room with
  | zero => cases h
  | succ less => exact ⟨less, rfl⟩

/-- Where a part has a text that need not be as deep, the part of a value that has one has a text. -/
theorem overrun?_of_part {w : Value} (hfits : ∀ less, room = less + 1 → w.fits less = true)
    (hints : ∀ n, w.HoldsInt n → v.HoldsInt n) : w.overrun? digits room = none := by
  obtain ⟨less, hroom⟩ := exists_room h
  have hshort := (overrun?_eq_none_iff.mp h).2
  rw [overrun?_eq_none_iff, hroom]
  exact ⟨fits_succ (hfits less hroom), fun n hn => hshort n (hints n hn)⟩

/-- The items of a value that has a text have texts. -/
theorem overrun?_item {items : List Value} (hitems : v.items? = some items) {w : Value}
    (hw : w ∈ items) : w.overrun? digits room = none := by
  refine overrun?_of_part h (fun less hroom => ?_) fun n hn => .item hitems hw hn
  have hfits := (overrun?_eq_none_iff.mp h).1
  rw [hroom, fits_of_items hitems, List.all_eq_true] at hfits
  exact hfits w hw

end Parts

/-- The names and values of an object that has a text have texts. -/
theorem overrun?_entry {fields : Fields} (h : (object fields).overrun? digits room = none)
    {f : Key × Value} (hf : f ∈ fields) :
    f.1.toValue.overrun? digits room = none ∧ f.2.overrun? digits room = none := by
  have hfits : ∀ less, room = less + 1 →
      f.1.toValue.fits less = true ∧ f.2.fits less = true := by
    intro less hroom
    have hfits := (overrun?_eq_none_iff.mp h).1
    rw [hroom, fits, List.all_eq_true] at hfits
    exact (Bool.and_eq_true _ _).mp (hfits f hf)
  exact ⟨overrun?_of_part h (fun less hroom => (hfits less hroom).1) fun n hn => .name hf hn,
    overrun?_of_part h (fun less hroom => (hfits less hroom).2) fun n hn => .field hf hn⟩

theorem overrun?_null (h : v.overrun? digits room = none) :
    Value.null.overrun? digits room = none := by
  obtain ⟨less, rfl⟩ := exists_room h
  rfl

/-- The fields of a value that has a text have texts. -/
theorem overrun?_field (h : v.overrun? digits room = none) (name : String) :
    (v.field name).overrun? digits room = none := by
  cases v with
  | object fields =>
    rw [field_eq]
    cases hget : (object fields).get? name with
    | none => exact overrun?_null h
    | some w => exact (overrun?_entry h (Fields.mem_of_get? hget)).2
  | _ => exact overrun?_null h

/-! ## Checks of values -/

/-- A check of a value that nests no deeper than the limit does not come to the limit. -/
theorem halt?_ne_depth_of_fits (h : v.fits room = true) : v.halt? room ≠ some .depth := by
  induction room generalizing v with
  | zero => simp [fits] at h
  | succ room ih =>
    intro hhalt
    rcases v.kinds with ⟨a, rfl⟩ | ⟨items, hitems⟩ | ⟨fields, rfl⟩
    · simp [halt?] at hhalt
    · rw [fits_of_items hitems, List.all_eq_true] at h
      rw [halt?_of_items hitems] at hhalt
      obtain ⟨w, hw, hdepth⟩ := List.exists_of_findSome?_eq_some hhalt
      exact ih (h w hw) hdepth
    · rw [fits, List.all_eq_true] at h
      rw [halt?] at hhalt
      obtain ⟨f, hf, hdepth⟩ := List.exists_of_findSome?_eq_some hhalt
      have hfits := h f hf
      rw [Bool.and_eq_true] at hfits
      obtain ⟨k, w⟩ := f
      simp only at hdepth
      split at hdepth
      · exact ih hfits.2 hdepth
      · cases hdepth

/-- Lists inside one another. -/
def nested : Nat → Value
  | 0 => .null
  | count + 1 => .list [nested count]

theorem halt?_nested {count : Nat} (h : room ≤ count) :
    (nested count).halt? room = some .depth := by
  induction count generalizing room with
  | zero =>
    obtain rfl := Nat.le_zero.mp h
    rfl
  | succ count ih =>
    cases room with
    | zero => rfl
    | succ room =>
      rw [nested, halt?, List.findSome?_cons, ih (Nat.le_of_succ_le_succ h)]

/-- A text for a name fits wherever its value does. -/
theorem fits_text {name : String} (h : v.fits room = true) : (text name).fits room = true := by
  cases room with
  | zero => simp [fits] at h
  | succ room => rfl

/-- In a value of JSON a check stops only at the limit. -/
theorem halt?_ne_offence (h : v.offence? = none) : v.halt? room ≠ some .offence := by
  induction room generalizing v with
  | zero => simp [halt?]
  | succ room ih =>
    intro hhalt
    rcases v.kinds with ⟨a, rfl⟩ | ⟨items, hitems⟩ | ⟨fields, rfl⟩
    · rw [halt?, (offence?_atom a).mp h] at hhalt
      cases hhalt
    · rw [halt?_of_items hitems] at hhalt
      obtain ⟨w, hw, hoffence⟩ := List.exists_of_findSome?_eq_some hhalt
      exact ih ((offence?_of_items? hitems).mp h w hw) hoffence
    · rw [halt?] at hhalt
      obtain ⟨⟨k, w⟩, hf, hoffence⟩ := List.exists_of_findSome?_eq_some hhalt
      obtain ⟨⟨name, hname⟩, hnone⟩ := (offence?_object fields).mp h _ hf
      subst hname
      exact ih hnone hoffence

/-- A check that does not stop has gone through all of a value. -/
theorem fits_of_halt? (h : v.halt? room = none) : v.fits room = true := by
  induction room generalizing v with
  | zero => cases h
  | succ room ih =>
    rcases v.kinds with ⟨a, rfl⟩ | ⟨items, hitems⟩ | ⟨fields, rfl⟩
    · rfl
    · rw [halt?_of_items hitems, List.findSome?_eq_none_iff] at h
      rw [fits_of_items hitems, List.all_eq_true]
      exact fun w hw => ih (h w hw)
    · rw [halt?, List.findSome?_eq_none_iff] at h
      rw [fits, List.all_eq_true]
      rintro ⟨k, w⟩ hf
      have hnone := h _ hf
      simp only at hnone
      split at hnone
      · rw [Bool.and_eq_true]
        exact ⟨fits_text (ih hnone), ih hnone⟩
      · cases hnone

section Within

variable {limits : Limits} {o : Option Offence}

theorem offenceWithin_eq_ok_iff :
    v.offenceWithin limits = .ok o ↔ v.halt? limits.checking ≠ some .depth ∧ v.offence? = o := by
  unfold offenceWithin
  split
  · rename_i hdepth
    exact iff_of_false (by simp) fun h => h.1 hdepth
  · rename_i hdepth
    simp [hdepth]

theorem offenceWithin_of_fits (h : v.fits limits.checking = true) :
    v.offenceWithin limits = .ok v.offence? :=
  offenceWithin_eq_ok_iff.mpr ⟨halt?_ne_depth_of_fits h, rfl⟩

/-- Lists inside one another, as many as the check can go down, are too deep for it. -/
theorem offenceWithin_nested {count : Nat} (h : limits.checking ≤ count) :
    (nested count).offenceWithin limits = .error .depth := by
  rw [offenceWithin, if_pos (halt?_nested h)]

/-- A check finds nothing just in the values of JSON that nest no deeper than the limit. -/
theorem offenceWithin_eq_ok_none_iff :
    v.offenceWithin limits = .ok none ↔ v.fits limits.checking = true ∧ v.offence? = none := by
  constructor
  · intro h
    obtain ⟨hdepth, hnone⟩ := offenceWithin_eq_ok_iff.mp h
    refine ⟨fits_of_halt? ?_, hnone⟩
    cases hhalt : v.halt? limits.checking with
    | none => rfl
    | some reason =>
      cases reason with
      | offence => exact absurd hhalt (halt?_ne_offence hnone)
      | depth => exact absurd hhalt hdepth
  · rintro ⟨hfits, hnone⟩
    rw [offenceWithin_of_fits hfits, hnone]

end Within

end Value

/-- The least integer with one digit too many. -/
theorem isShort_pow (digits : Nat) : isShort digits (Nat.pow 10 digits : Nat) = false := by
  rw [isShort, Int.natAbs_natCast]
  exact decide_eq_false (Nat.lt_irrefl _)

end PageBuilder
