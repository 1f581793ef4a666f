import PageBuilder.Json.Canonical
import PageBuilder.Proofs.Json.RoundTrip
import PageBuilder.Proofs.Results
import PageBuilder.Proofs.Value.SameJson

/-!
The canonical text of a value tells it apart from all others, but for the order of fields.

* `sorted_storable`: the order of fields makes no difference to what can be stored;
* `exists_write`, `canonicalText_ok`: every value of JSON has a text, and a canonical one;
* `sorted_eq_of_canonicalText`: values with one canonical text have the same fields in order.
-/

namespace PageBuilder

/-- Texts are different names just if they are different texts. -/
theorem Fields.distinct_iff_nodup {fields : Fields}
    (hnamed : ∀ f ∈ fields, ∃ name, f.1 = .text name) :
    Distinct fields ↔ (fields.map Prod.fst).Nodup := by
  rw [distinct_iff, List.nodup_iff_pairwise_ne]
  refine List.Pairwise.iff_of_mem fun {j k} hj hk => ?_
  obtain ⟨g, hg, rfl⟩ := List.mem_map.mp hk
  obtain ⟨name, hname⟩ := hnamed g hg
  rw [hname, Bool.eq_false_iff, Ne, Key.alike_text_iff]

namespace Json

open Value (Storable)

/-! ## Order -/

theorem sortedItems_eq (items : List Value) : sortedItems items = items.map sorted := by
  induction items with
  | nil => rfl
  | cons v rest ih => rw [sortedItems, ih, List.map_cons]

theorem sortedFields_eq (fields : Fields) :
    sortedFields fields = fields.map fun f => (f.1, sorted f.2) := by
  induction fields with
  | nil => rfl
  | cons f rest ih => rw [sortedFields, ih, List.map_cons]

/-- The fields in order are those that were given, with their values in order. -/
theorem sortedFields_perm (fields : Fields) :
    ((sortedFields fields).mergeSort nameOrder).Perm (fields.map fun f => (f.1, sorted f.2)) := by
  rw [← sortedFields_eq]
  exact List.mergeSort_perm ..

theorem forall_sortedFields {P : Key × Value → Prop} {fields : Fields}
    (h : ∀ f ∈ fields, P (f.1, sorted f.2)) :
    ∀ f ∈ (sortedFields fields).mergeSort nameOrder, P f := by
  intro f hf
  obtain ⟨g, hg, rfl⟩ := List.mem_map.mp ((sortedFields_perm fields).subset hf)
  exact h g hg

theorem sorted_storable {v : Value} (h : v.Storable) : (sorted v).Storable := by
  induction h with
  | atom ha => exact .atom ha
  | list _ ih =>
    rw [sorted, sortedItems_eq]
    refine .list fun w hw => ?_
    obtain ⟨v, hv, rfl⟩ := List.mem_map.mp hw
    exact ih v hv
  | @object fields hdistinct hnamed _ ih =>
    have hperm := sortedFields_perm fields
    have hsorted := forall_sortedFields (P := fun f => ∃ name, f.1 = .text name) hnamed
    rw [sorted]
    refine .object ?_ hsorted (forall_sortedFields (P := fun f => f.2.Storable) ih)
    rw [Fields.distinct_iff_nodup hsorted, (hperm.map Prod.fst).nodup_iff, List.map_map]
    exact (Fields.distinct_iff_nodup hnamed).mp hdistinct

/-- The order of fields makes no difference to what JSON has. -/
theorem sorted_ofJson {v : Value} (h : v.OfJson) : (sorted v).OfJson := by
  induction h with
  | null => exact .null
  | bool b => exact .bool b
  | int n => exact .int n
  | float hfinite => exact .float hfinite
  | text s => exact .text s
  | @sequence v items hitems _ ih =>
    have hbelow : ∀ w ∈ items.map sorted, w.OfJson := List.forall_mem_map.mpr ih
    rcases Value.items?_eq_some_iff.mp hitems with rfl | rfl
    · rw [sorted, sortedItems_eq]
      exact .sequence rfl hbelow
    · rw [sorted, sortedItems_eq]
      exact .sequence rfl hbelow
  | @object fields hnamed _ ih =>
    rw [sorted]
    exact .object (forall_sortedFields hnamed) (forall_sortedFields (P := fun f => f.2.OfJson) ih)

/-! ## Texts -/

section Write

variable {style : Style} {depth : Nat}

theorem exists_writeItems {items : List Value}
    (h : ∀ v ∈ items, ∃ part, write style depth v = .ok part) :
    ∃ parts, writeItems style depth items = .ok parts := by
  induction items with
  | nil => exact ⟨[], rfl⟩
  | cons v rest ih =>
    obtain ⟨⟨part, hpart⟩, hrest⟩ := List.forall_mem_cons.mp h
    obtain ⟨parts, hparts⟩ := ih hrest
    exact ⟨part :: parts, bind_eq_ok_iff.mpr ⟨part, hpart, bind_eq_ok_iff.mpr ⟨parts, hparts, rfl⟩⟩⟩

theorem exists_writeFields {fields : Fields} (hnamed : ∀ f ∈ fields, ∃ name, f.1 = .text name)
    (h : ∀ f ∈ fields, ∃ part, write style depth f.2 = .ok part) :
    ∃ parts, writeFields style depth fields = .ok parts := by
  induction fields with
  | nil => exact ⟨[], rfl⟩
  | cons f rest ih =>
    obtain ⟨k, v⟩ := f
    obtain ⟨⟨name, hname⟩, hothers⟩ := List.forall_mem_cons.mp hnamed
    obtain rfl : k = .text name := hname
    obtain ⟨⟨part, hpart⟩, hrest⟩ := List.forall_mem_cons.mp h
    obtain ⟨parts, hparts⟩ := ih hothers hrest
    exact ⟨_, bind_eq_ok_iff.mpr ⟨quoted name.toList, rfl,
      bind_eq_ok_iff.mpr ⟨part, hpart, bind_eq_ok_iff.mpr ⟨parts, hparts, rfl⟩⟩⟩⟩

/-- Every value of JSON has a text, in whatever style. -/
theorem exists_write (style : Style) {v : Value} (h : v.OfJson) :
    ∀ depth, ∃ part, write style depth v = .ok part := by
  induction h with
  | null => exact fun _ => ⟨_, rfl⟩
  | bool b => cases b <;> exact fun _ => ⟨_, rfl⟩
  | int n => exact fun _ => ⟨_, rfl⟩
  | @float x hfinite =>
    intro depth
    refine ⟨x.text nonFiniteWords, ?_⟩
    show doubleText style x = _
    rw [doubleText, hfinite, Bool.true_or, if_pos rfl]
  | text s => exact fun _ => ⟨_, rfl⟩
  | @sequence v items hitems _ ih =>
    intro depth
    obtain ⟨parts, hparts⟩ := exists_writeItems fun w hw => ih w hw (depth + 1)
    refine ⟨enclosed style depth '[' ']' parts, ?_⟩
    rcases Value.items?_eq_some_iff.mp hitems with rfl | rfl
    · rw [write, hparts, Except.map]
    · rw [write, hparts, Except.map]
  | object hnamed _ ih =>
    intro depth
    obtain ⟨parts, hparts⟩ := exists_writeFields hnamed fun f hf => ih f hf (depth + 1)
    refine ⟨enclosed style depth '\x7b' '\x7d' parts, ?_⟩
    rw [write, hparts, Except.map]

end Write

theorem canonicalText_eq_ok_iff (v : Value) (t : String) :
    canonicalText v = .ok t ↔ v.offence? = none ∧ text .compact (sorted v) = .ok t := by
  unfold canonicalText
  cases v.offence? with
  | none => simp [mapError_eq_ok_iff]
  | some o => simp

/-- Every value in which no offence is found has a canonical text. -/
theorem canonicalText_ok {v : Value} (h : v.offence? = none) : ∃ t, canonicalText v = .ok t := by
  obtain ⟨part, hpart⟩ :=
    exists_write .compact (sorted_ofJson (Value.ofJson_of_offence? v h)) 0
  refine ⟨String.ofList part, (canonicalText_eq_ok_iff v _).mpr ⟨h, ?_⟩⟩
  rw [text, hpart, Except.map]

/-- Values with one canonical text have the same fields in order. -/
theorem sorted_eq_of_canonicalText {v w : Value} {t : String} (hv : v.Plain) (hw : w.Plain)
    (hvt : canonicalText v = .ok t) (hwt : canonicalText w = .ok t) : sorted v = sorted w := by
  obtain ⟨hv', hvt⟩ := (canonicalText_eq_ok_iff v t).mp hvt
  obtain ⟨hw', hwt⟩ := (canonicalText_eq_ok_iff w t).mp hwt
  obtain ⟨s, hs, hvs⟩ :=
    valueOfText_text regular_compact (sorted_storable (hv.storable hv')) .strict
  obtain ⟨u, hu, hwu⟩ :=
    valueOfText_text regular_compact (sorted_storable (hw.storable hw')) .strict
  obtain rfl : s = t := Except.ok.inj (hs.symm.trans hvt)
  obtain rfl : u = s := Except.ok.inj (hu.symm.trans hwt)
  exact Except.ok.inj (hvs.symm.trans hwu)

end Json

end PageBuilder
