import Mathlib.Data.List.Nodup
import PageBuilder.Proofs.Json.Canonical
import PageBuilder.Proofs.Value.SameJson

/-!
Two values have one canonical text just if they stand for one JSON value, and then one digest.

* `mergeSort_eq_of_perm`: the order of fields with different names does not depend on the order in
  which they were given;
* `form_eq_iff`: the canonical form, in which tuples are lists and fields are in order, is one for
  each JSON value;
* `canonicalText_reads`: the canonical text is read as this form;
* `digestText_inj`: digests of texts are equal only if the hashes of their octets are;
* `canonicalText_eq_iff_sameJson`: the canonical text, and the digest but for a collision, tell
  JSON values apart.
-/

namespace PageBuilder.Json

open Value (Proper SameJson Storable)

/-! ## Order of fields -/

/-- The name by which a field is put in order. -/
def sortName (f : Key × Value) : String :=
  match f.1 with
  | .text s => s
  | _ => ""

theorem nameOrder_eq {f g : Key × Value} (hf : ∃ name, f.1 = .text name)
    (hg : ∃ name, g.1 = .text name) :
    nameOrder f g = !decide (sortName g < sortName f) := by
  obtain ⟨s, hs⟩ := hf
  obtain ⟨t, ht⟩ := hg
  simp only [nameOrder, sortName, hs, ht]

/-- The order by names, which unlike `nameOrder` is one of all fields. -/
def byName (f g : Key × Value) : Bool := !decide (sortName g < sortName f)

theorem byName_iff (f g : Key × Value) : byName f g = true ↔ sortName f ≤ sortName g := by
  rw [byName, Bool.not_eq_true', decide_eq_false_iff_not, String.not_lt]

theorem mergeSort_nameOrder {fields : Fields} (hnamed : ∀ f ∈ fields, ∃ name, f.1 = .text name) :
    fields.mergeSort nameOrder = fields.mergeSort byName := by
  have h := List.map_mergeSort (r := nameOrder) (s := byName) (f := id) (l := fields)
    fun f hf g hg => nameOrder_eq (hnamed f hf) (hnamed g hg)
  rwa [List.map_id, List.map_id] at h

theorem pairwise_mergeSort_byName (fields : Fields) :
    (fields.mergeSort byName).Pairwise fun f g => sortName f ≤ sortName g := by
  have htrans : ∀ f g h, byName f g = true → byName g h = true → byName f h = true := by
    intro f g h hfg hgh
    rw [byName_iff] at *
    exact String.le_trans hfg hgh
  have htotal : ∀ f g, (byName f g || byName g f) = true := by
    intro f g
    rw [Bool.or_eq_true, byName_iff, byName_iff]
    exact String.le_total _ _
  exact (List.pairwise_mergeSort htrans htotal fields).imp fun h => (byName_iff _ _).mp h

/-- Fields with different names have one order, whatever the order in which they were given. -/
theorem mergeSort_eq_of_perm {fields others : Fields} (h : fields.Perm others)
    (hnamed : ∀ f ∈ fields, ∃ name, f.1 = .text name) (hdistinct : (fields.map Prod.fst).Nodup) :
    fields.mergeSort nameOrder = others.mergeSort nameOrder := by
  rw [mergeSort_nameOrder hnamed, mergeSort_nameOrder fun f hf => hnamed f (h.mem_iff.mpr hf)]
  have hperm : (fields.mergeSort byName).Perm (others.mergeSort byName) :=
    (List.mergeSort_perm ..).trans (h.trans (List.mergeSort_perm ..).symm)
  refine List.Perm.eq_of_pairwise ?_ (pairwise_mergeSort_byName _)
    (pairwise_mergeSort_byName _) hperm
  intro f g hf hg hfg hgf
  have hf : f ∈ fields := List.mem_mergeSort.mp hf
  have hg : g ∈ fields := h.mem_iff.mpr (List.mem_mergeSort.mp hg)
  obtain ⟨s, hs⟩ := hnamed f hf
  obtain ⟨t, ht⟩ := hnamed g hg
  have hst : s = t := by
    have := String.le_antisymm hfg hgf
    simpa only [sortName, hs, ht] using this
  exact List.inj_on_of_nodup_map hdistinct hf hg (by rw [hs, ht, hst])

/-! ## The canonical form -/

/-- The value in canonical form: lists for tuples, and fields in order. -/
def form (v : Value) : Value := sorted v.jsonable

theorem form_atom {a : Atom} (h : a.offence? = none) : form (.atom a) = .atom a := by
  rw [form, Value.jsonable_atom h, sorted]

theorem form_of_items? {v : Value} {items : List Value} (h : v.items? = some items) :
    form v = .list (items.map form) := by
  rw [form, Value.jsonable_of_items? h, sorted, sortedItems_eq, List.map_map]
  rfl

theorem form_object (fields : Fields) :
    form (.object fields) =
      .object ((fields.map fun f => (f.1, form f.2)).mergeSort nameOrder) := by
  rw [form, Value.jsonable_object, sorted, sortedFields_eq, List.map_map]
  rfl

theorem form_storable {v : Value} (h : Proper v) (hv : v.offence? = none) : (form v).Storable :=
  sorted_storable (h.storable_jsonable hv)

/-! ## One form for each JSON value -/

theorem map_eq_map_iff_zip {α β : Type} {f : α → β} {items others : List α} :
    items.map f = others.map f ↔
      items.length = others.length ∧ ∀ p ∈ items.zip others, f p.1 = f p.2 := by
  induction items generalizing others with
  | nil => cases others <;> simp
  | cons x rest ih =>
    cases others with
    | nil => simp
    | cons y others => simp [ih, and_left_comm]

/-- Values in one form stand for one JSON value. -/
theorem sameJson_of_form_eq {v w : Value} (hv : v.Proper) (hw : w.Proper)
    (hvj : v.offence? = none) (hwj : w.offence? = none) (h : form v = form w) : v.SameJson w := by
  induction hv generalizing w with
  | atom a =>
    rw [form_atom (Value.offence?_atom a |>.mp hvj)] at h
    cases hw with
    | atom b =>
      rw [form_atom (Value.offence?_atom b |>.mp hwj)] at h
      cases h
      exact .atom a
    | sequence hmembers _ =>
      rw [form_of_items? hmembers] at h
      cases h
    | object _ _ =>
      rw [form_object] at h
      cases h
  | @sequence v items hmembers _ ih =>
    have hvj := (Value.offence?_of_items? hmembers).mp hvj
    rw [form_of_items? hmembers] at h
    cases hw with
    | atom b =>
      rw [form_atom (Value.offence?_atom b |>.mp hwj)] at h
      cases h
    | @sequence _ others hmembers' hproper =>
      have hwj := (Value.offence?_of_items? hmembers').mp hwj
      rw [form_of_items? hmembers', Value.list.injEq, map_eq_map_iff_zip] at h
      refine .sequence hmembers hmembers' h.1 fun p hp => ?_
      obtain ⟨hleft, hright⟩ := List.of_mem_zip hp
      exact ih _ hleft (hproper _ hright) (hvj _ hleft) (hwj _ hright) (h.2 p hp)
    | object _ _ =>
      rw [form_object] at h
      cases h
  | @object fields _ _ ih =>
    have hvj := (Value.offence?_object fields).mp hvj
    rw [form_object] at h
    cases hw with
    | atom b =>
      rw [form_atom (Value.offence?_atom b |>.mp hwj)] at h
      cases h
    | sequence hmembers' _ =>
      rw [form_of_items? hmembers'] at h
      cases h
    | @object others hdistinct hproper =>
      have hwj := (Value.offence?_object others).mp hwj
      rw [form_object, Value.object.injEq] at h
      have hperm : (fields.map fun f => (f.1, form f.2)).Perm
          (others.map fun f => (f.1, form f.2)) := by
        refine (List.mergeSort_perm _ nameOrder).symm.trans ?_
        rw [h]
        exact List.mergeSort_perm ..
      refine .object ?_ fun f hf g hg hname => ?_
      · simpa [List.map_map, Function.comp_def] using hperm.map Prod.fst
      · -- The field with the name of `f` among the others is `g`, as names are distinct.
        obtain ⟨g', hg', heq⟩ := List.mem_map.mp (hperm.subset (List.mem_map_of_mem hf))
        obtain ⟨hname', hform⟩ := Prod.mk.inj heq
        have hnodup := (Fields.distinct_iff_nodup fun g hg => (hwj g hg).1).mp hdistinct
        obtain rfl : g' = g :=
          List.inj_on_of_nodup_map hnodup hg' hg (hname'.trans hname)
        exact ih f hf (hproper g' hg') (hvj f hf).2 (hwj g' hg').2 hform.symm

/-- Fields that are found among others with their values in form. -/
theorem map_form_subset {fields others : Fields}
    (hnames : ∀ k ∈ fields.map Prod.fst, k ∈ others.map Prod.fst)
    (hsame : ∀ f ∈ fields, ∀ g ∈ others, f.1 = g.1 → form f.2 = form g.2) :
    ∀ p ∈ fields.map (fun f => (f.1, form f.2)), p ∈ others.map fun f => (f.1, form f.2) := by
  intro p hp
  obtain ⟨f, hf, rfl⟩ := List.mem_map.mp hp
  obtain ⟨g, hg, hname⟩ := List.mem_map.mp (hnames f.1 (List.mem_map_of_mem hf))
  refine List.mem_map.mpr ⟨g, hg, ?_⟩
  rw [hname, hsame f hf g hg hname.symm]

/-- One JSON value has one form. -/
theorem form_eq_of_sameJson {v w : Value} (h : v.SameJson w) (hv : v.Proper) (hw : w.Proper)
    (hvj : v.offence? = none) (hwj : w.offence? = none) : form v = form w := by
  induction h with
  | atom a => rfl
  | sequence hmembers hmembers' hlength _ ih =>
    have hvj := (Value.offence?_of_items? hmembers).mp hvj
    have hwj := (Value.offence?_of_items? hmembers').mp hwj
    rw [form_of_items? hmembers, form_of_items? hmembers', map_eq_map_iff_zip.mpr]
    refine ⟨hlength, fun p hp => ?_⟩
    obtain ⟨hleft, hright⟩ := List.of_mem_zip hp
    exact ih p hp (hv.items hmembers _ hleft) (hw.items hmembers' _ hright) (hvj _ hleft)
      (hwj _ hright)
  | @object fields others hnames _ ih =>
    have hvj := (Value.offence?_object fields).mp hvj
    have hwj := (Value.offence?_object others).mp hwj
    obtain ⟨hdistinct, hv⟩ := (Value.proper_object_iff fields).mp hv
    obtain ⟨hdistinct', hw⟩ := (Value.proper_object_iff others).mp hw
    have hnodup := (Fields.distinct_iff_nodup fun f hf => (hvj f hf).1).mp hdistinct
    have hnodup' := (Fields.distinct_iff_nodup fun f hf => (hwj f hf).1).mp hdistinct'
    have hsame : ∀ f ∈ fields, ∀ g ∈ others, f.1 = g.1 → form f.2 = form g.2 :=
      fun f hf g hg hname =>
        ih f hf g hg hname (hv f hf) (hw g hg) (hvj f hf).2 (hwj g hg).2
    have hfst (fields : Fields) :
        (fields.map fun f => (f.1, form f.2)).map Prod.fst = fields.map Prod.fst := by
      simp [List.map_map, Function.comp_def]
    have hperm : (fields.map fun f => (f.1, form f.2)).Perm
        (others.map fun f => (f.1, form f.2)) := by
      refine (List.perm_ext_iff_of_nodup ?_ ?_).mpr fun p => ⟨?_, ?_⟩
      · exact List.Nodup.of_map Prod.fst (by rwa [hfst])
      · exact List.Nodup.of_map Prod.fst (by rwa [hfst])
      · exact map_form_subset (fun k hk => hnames.subset hk) hsame p
      · exact map_form_subset (fun k hk => hnames.symm.subset hk)
          (fun g hg f hf hname => (hsame f hf g hg hname.symm).symm) p
    rw [form_object, form_object, mergeSort_eq_of_perm hperm ?_ (by rwa [hfst])]
    intro p hp
    obtain ⟨f, hf, rfl⟩ := List.mem_map.mp hp
    exact (hvj f hf).1

theorem form_eq_iff {v w : Value} (hv : v.Proper) (hw : w.Proper) (hvj : v.offence? = none)
    (hwj : w.offence? = none) : form v = form w ↔ v.SameJson w :=
  ⟨sameJson_of_form_eq hv hw hvj hwj, fun h => form_eq_of_sameJson h hv hw hvj hwj⟩

/-! ## The text of the form -/

section Text

variable {style : Style} {depth : Nat}

theorem writeItems_congr {f g : Value → Value} {items : List Value}
    (h : ∀ v ∈ items, write style depth (f v) = write style depth (g v)) :
    writeItems style depth (items.map f) = writeItems style depth (items.map g) := by
  induction items with
  | nil => rfl
  | cons v rest ih =>
    have hrest := ih fun w hw => h w (List.mem_cons_of_mem _ hw)
    rw [List.map_cons, List.map_cons, writeItems, writeItems, h v (List.mem_cons_self ..), hrest]

theorem writeFields_congr {f g : Value → Value} {fields : Fields}
    (h : ∀ p ∈ fields, write style depth (f p.2) = write style depth (g p.2)) :
    writeFields style depth (fields.map fun p => (p.1, f p.2)) =
      writeFields style depth (fields.map fun p => (p.1, g p.2)) := by
  induction fields with
  | nil => rfl
  | cons p rest ih =>
    have hrest := ih fun q hq => h q (List.mem_cons_of_mem _ hq)
    rw [List.map_cons, List.map_cons, writeFields, writeFields, h p (List.mem_cons_self ..), hrest]

/-- A change of values does not touch the order of fields. -/
theorem mergeSort_map_snd (f : Value → Value) (fields : Fields) :
    (fields.map fun p => (p.1, f p.2)).mergeSort nameOrder =
      (fields.mergeSort nameOrder).map fun p => (p.1, f p.2) :=
  (List.map_mergeSort (f := fun p : Key × Value => (p.1, f p.2)) fun _ _ _ _ => rfl).symm

/-- The fixed length of a sequence is not written. -/
theorem write_of_items? {v : Value} {items : List Value} (h : v.items? = some items) :
    write style depth (sorted v) =
      (writeItems style (depth + 1) (items.map sorted)).map (enclosed style depth '[' ']') := by
  rcases Value.items?_eq_some_iff.mp h with rfl | rfl
  · rw [sorted, write, sortedItems_eq]
  · rw [sorted, write, sortedItems_eq]

theorem write_form {v : Value} (hv : v.Proper) (hvj : v.offence? = none) :
    ∀ depth, write style depth (form v) = write style depth (sorted v) := by
  induction hv with
  | atom a =>
    intro depth
    rw [form_atom ((Value.offence?_atom a).mp hvj), sorted]
  | sequence hmembers _ ih =>
    intro depth
    have hvj := (Value.offence?_of_items? hmembers).mp hvj
    rw [form_of_items? hmembers, write_of_items? hmembers, write]
    rw [writeItems_congr fun w hw => ih w hw (hvj w hw) (depth + 1)]
  | @object fields _ _ ih =>
    intro depth
    have hvj := (Value.offence?_object fields).mp hvj
    rw [form_object, sorted, sortedFields_eq, write, write, mergeSort_map_snd form,
      mergeSort_map_snd sorted, writeFields_congr]
    intro f hf
    have hf := List.mem_mergeSort.mp hf
    exact ih f hf (hvj f hf).2 (depth + 1)

end Text

/-- The canonical text is that of the canonical form. -/
theorem canonicalText_eq_text_form {v : Value} (hv : v.Proper) (hvj : v.offence? = none) :
    canonicalText v = (text .compact (form v)).mapError .unwritable := by
  rw [canonicalText, hvj, text, text, write_form hv hvj]

/-- The canonical text is read as the canonical form. -/
theorem canonicalText_reads {v : Value} (hv : v.Proper) (hvj : v.offence? = none) :
    ∃ s, canonicalText v = .ok s ∧ valueOfText .strict s = .ok (form v) := by
  obtain ⟨s, hs, hread⟩ := valueOfText_text regular_compact (form_storable hv hvj) .strict
  refine ⟨s, ?_, hread⟩
  rw [canonicalText_eq_text_form hv hvj, hs]
  rfl

/-! ## Digests -/

/-- Different octets with one hash. -/
def Collide (x y : List UInt8) : Prop := x ≠ y ∧ Digest.sha256 x = Digest.sha256 y

theorem hex_two (b : UInt8) : ∃ c d, Text.hex 2 b.toNat = [c, d] ∧
    (do return (← hexDigit? c) * 16 + (← hexDigit? d)) = some b.toNat := by
  let digit (n i : Nat) : Char := (Text.hex 2 n).getD i '0'
  have hall : ∀ n : Fin 256, Text.hex 2 n = [digit n 0, digit n 1] ∧
      (do return (← hexDigit? (digit n 0)) * 16 + (← hexDigit? (digit n 1))) =
        some n.val := by decide +kernel
  exact ⟨_, _, hall ⟨b.toNat, b.toNat_lt⟩⟩

theorem flatMap_hex_inj {x y : List UInt8}
    (h : x.flatMap (fun b => Text.hex 2 b.toNat) = y.flatMap fun b => Text.hex 2 b.toNat) :
    x = y := by
  induction x generalizing y with
  | nil =>
    cases y with
    | nil => rfl
    | cons b y =>
      obtain ⟨c, d, hb, -⟩ := hex_two b
      simp [hb] at h
  | cons a x ih =>
    obtain ⟨c, d, ha, hread⟩ := hex_two a
    cases y with
    | nil => simp [ha] at h
    | cons b y =>
      obtain ⟨c', d', hb, hread'⟩ := hex_two b
      simp only [List.flatMap_cons, ha, hb, List.cons_append, List.nil_append, List.cons.injEq]
        at h
      obtain ⟨rfl, rfl, h⟩ := h
      have hab := UInt8.toNat_inj.mp (Option.some.inj (hread.symm.trans hread'))
      rw [hab, ih h]

/-- Digests of texts are equal only if the hashes of their octets are. -/
theorem digestText_inj {s t : String} :
    digestText s = digestText t ↔
      Digest.sha256 (Text.Utf8.encode s) = Digest.sha256 (Text.Utf8.encode t) := by
  refine ⟨fun h => ?_, fun h => by rw [digestText, digestText, h]⟩
  unfold digestText at h
  rw [String.append_right_inj, String.ofList_inj] at h
  exact flatMap_hex_inj h

theorem encode_inj {s t : String} (h : Text.Utf8.encode s = Text.Utf8.encode t) : s = t := by
  have hread := Text.Utf8.decode_encode s
  rw [h, Text.Utf8.decode_encode] at hread
  exact String.toList_inj.mp (Except.ok.inj hread).symm

theorem digestText_eq_iff (s t : String) :
    digestText s = digestText t ↔
      s = t ∨ Collide (Text.Utf8.encode s) (Text.Utf8.encode t) := by
  rw [digestText_inj]
  by_cases h : s = t
  · simp [h]
  · have hne := mt encode_inj h
    simp [h, hne, Collide]

/-! ## JSON values -/

/-- The canonical texts of two values are equal just if the values stand for one JSON value, and so
are their digests, unless the hashes of the two texts collide. -/
theorem canonicalText_eq_iff_sameJson {v w : Value} (hv : v.Proper) (hw : w.Proper)
    (hvj : v.isJsonLike = true) (hwj : w.isJsonLike = true) :
    ∃ s t, canonicalText v = .ok s ∧ canonicalText w = .ok t ∧ (s = t ↔ v.SameJson w) ∧
      ∃ d e, digest v = .ok d ∧ digest w = .ok e ∧
        (d = e ↔ v.SameJson w ∨ Collide (Text.Utf8.encode s) (Text.Utf8.encode t)) := by
  rw [Value.isJsonLike, Option.isNone_iff_eq_none] at hvj hwj
  obtain ⟨s, hs, hreads⟩ := canonicalText_reads hv hvj
  obtain ⟨t, ht, hreadt⟩ := canonicalText_reads hw hwj
  have hst : s = t ↔ v.SameJson w := by
    rw [← form_eq_iff hv hw hvj hwj]
    constructor
    · rintro rfl
      exact Except.ok.inj (hreads.symm.trans hreadt)
    · intro hform
      rw [canonicalText_eq_text_form hv hvj] at hs
      rw [canonicalText_eq_text_form hw hwj, ← hform] at ht
      exact Except.ok.inj (hs.symm.trans ht)
  refine ⟨s, t, hs, ht, hst, digestText s, digestText t, ?_, ?_, ?_⟩
  · rw [digest, hs]
    rfl
  · rw [digest, ht]
    rfl
  · rw [digestText_eq_iff, hst]

/-- A size and its parts, as a sequence of fixed length. -/
def fixedSizes : Value :=
  .ofFields [("sizes", .tuple [.int 5, .float (.ofRank true 0)]), ("open", .bool true)]

/-- The same as a list, with the fields the other way round. -/
def listedSizes : Value :=
  .ofFields [("open", .bool true), ("sizes", .list [.int 5, .float (.ofRank true 0)])]

theorem proper_fixedSizes : fixedSizes.Proper := by
  simp [fixedSizes]

theorem proper_listedSizes : listedSizes.Proper := by
  simp [listedSizes]

theorem canonicalText_sizes :
    fixedSizes.Proper ∧ listedSizes.Proper ∧ fixedSizes.isJsonLike = true ∧
      listedSizes.isJsonLike = true ∧
      ∃ s t, canonicalText fixedSizes = .ok s ∧ canonicalText listedSizes = .ok t ∧
        (s = t ↔ fixedSizes.SameJson listedSizes) ∧
        ∃ d e, digest fixedSizes = .ok d ∧ digest listedSizes = .ok e ∧
          (d = e ↔ fixedSizes.SameJson listedSizes ∨
            Collide (Text.Utf8.encode s) (Text.Utf8.encode t)) := by
  have hfixed : fixedSizes.isJsonLike = true := by decide
  have hlisted : listedSizes.isJsonLike = true := by decide
  exact ⟨proper_fixedSizes, proper_listedSizes, hfixed, hlisted,
    canonicalText_eq_iff_sameJson proper_fixedSizes proper_listedSizes hfixed hlisted⟩

end PageBuilder.Json
