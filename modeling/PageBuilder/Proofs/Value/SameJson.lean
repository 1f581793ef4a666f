import PageBuilder.Proofs.Value.Plain

/-!
Values that stand for one JSON value: the order of fields is ignored at every depth, and a sequence
of fixed length is read as a list. Atoms of different kinds are different.

* `Value.parts_induction`: induction on the members and fields of values;
* `Value.Proper`: a value whose objects are proper, with sequences of both kinds;
* `Value.SameJson`: one JSON value, said without any order or text;
* `Value.offence?_eq_none_iff_ofJson`: the values in which no offence is found;
* `Value.Proper.storable_jsonable`: what is written for a proper value can be stored.
-/

namespace PageBuilder

namespace Value

/-- The members of a sequence, of fixed length or not. -/
def items? : Value → Option (List Value)
  | .list items => some items
  | .tuple items => some items
  | _ => none

theorem items?_eq_some_iff {v : Value} {items : List Value} :
    v.items? = some items ↔ v = .list items ∨ v = .tuple items := by
  cases v <;> simp [items?]

/-- Values are made of the members of sequences and the values of fields, down to atoms. -/
theorem parts_induction {P : Value → Prop} (ofAtom : ∀ a, P (.atom a))
    (ofItems : ∀ {v items}, v.items? = some items → (∀ w ∈ items, P w) → P v)
    (ofFields : ∀ fields : Fields, (∀ f ∈ fields, P f.2) → P (.object fields)) (v : Value) :
    P v := by
  match v with
  | .atom a => exact ofAtom a
  | .list items => exact ofItems rfl fun w hw => parts_induction ofAtom ofItems ofFields w
  | .tuple items => exact ofItems rfl fun w hw => parts_induction ofAtom ofItems ofFields w
  | .object fields =>
    exact ofFields fields fun f hf => parts_induction ofAtom ofItems ofFields f.2
termination_by sizeOf v
decreasing_by
  · have := List.sizeOf_lt_of_mem hw
    simp only [list.sizeOf_spec]
    omega
  · have := List.sizeOf_lt_of_mem hw
    simp only [tuple.sizeOf_spec]
    omega
  · have := List.sizeOf_lt_of_mem hf
    have : sizeOf f.2 < sizeOf f := by
      obtain ⟨k, w⟩ := f
      simp only [Prod.mk.sizeOf_spec]
      omega
    simp only [object.sizeOf_spec]
    omega

/-- A value whose objects name no field twice, at every depth. -/
inductive Proper : Value → Prop where
  | atom (a : Atom) : Proper (.atom a)
  | sequence {v : Value} {items : List Value} (members : v.items? = some items)
      (items_proper : ∀ w ∈ items, Proper w) : Proper v
  | object {fields : Fields} (distinct : Fields.Distinct fields)
      (fields_proper : ∀ f ∈ fields, Proper f.2) : Proper (.object fields)

/-- One JSON value. Sequences are compared member by member, objects by the fields of each name. -/
inductive SameJson : Value → Value → Prop where
  | atom (a : Atom) : SameJson (.atom a) (.atom a)
  | sequence {v w : Value} {items others : List Value}
      (members : v.items? = some items) (members' : w.items? = some others)
      (length : items.length = others.length)
      (same : ∀ p ∈ items.zip others, SameJson p.1 p.2) : SameJson v w
  | object {fields others : Fields}
      (names : (fields.map Prod.fst).Perm (others.map Prod.fst))
      (same : ∀ f ∈ fields, ∀ g ∈ others, f.1 = g.1 → SameJson f.2 g.2) :
      SameJson (.object fields) (.object others)

/-! ## Proper values -/

theorem Proper.items {v : Value} (h : Proper v) {items : List Value}
    (hitems : v.items? = some items) : ∀ w ∈ items, Proper w := by
  cases h with
  | sequence hmembers hproper =>
    cases hmembers.symm.trans hitems
    exact hproper
  | _ => cases hitems

theorem proper_object_iff (fields : Fields) :
    Proper (.object fields) ↔ Fields.Distinct fields ∧ ∀ f ∈ fields, Proper f.2 := by
  constructor
  · intro h
    cases h with
    | sequence hmembers _ => cases hmembers
    | object hdistinct hproper => exact ⟨hdistinct, hproper⟩
  · rintro ⟨hdistinct, hproper⟩
    exact .object hdistinct hproper

@[simp] theorem proper_atom (a : Atom) : Proper (.atom a) := .atom a

@[simp] theorem proper_list_iff (items : List Value) :
    Proper (.list items) ↔ ∀ v ∈ items, Proper v :=
  ⟨fun h => h.items rfl, .sequence rfl⟩

@[simp] theorem proper_tuple_iff (items : List Value) :
    Proper (.tuple items) ↔ ∀ v ∈ items, Proper v :=
  ⟨fun h => h.items rfl, .sequence rfl⟩

@[simp] theorem proper_ofFields_iff (pairs : List (String × Value)) :
    Proper (.ofFields pairs) ↔ (pairs.map Prod.fst).Nodup ∧ ∀ p ∈ pairs, Proper p.2 := by
  rw [ofFields, proper_object_iff, Fields.distinct_texts_iff, List.forall_mem_map]

theorem Plain.proper {v : Value} (h : Plain v) : Proper v := by
  induction h with
  | atom a => exact .atom a
  | list _ ih => exact .sequence rfl ih
  | object hdistinct _ _ ih => exact .object hdistinct ih

/-! ## One JSON value -/

@[simp] theorem sameJson_atom_iff (a b : Atom) : SameJson (.atom a) (.atom b) ↔ a = b := by
  constructor
  · intro h
    cases h with
    | atom _ => rfl
    | sequence hmembers _ _ _ => cases hmembers
  · rintro rfl
    exact .atom a

example : ¬ SameJson (.float (.ofRank false 0)) (.float (.ofRank true 0)) := by
  rw [sameJson_atom_iff]
  decide

/-! ## Offences -/

theorem offence?_of_items? {v : Value} {items : List Value} (h : v.items? = some items) :
    v.offence? = none ↔ ∀ w ∈ items, w.offence? = none := by
  rcases items?_eq_some_iff.mp h with rfl | rfl
  · rw [offence?, itemsOffence?_eq_none_iff]
  · rw [offence?, itemsOffence?_eq_none_iff]

/-- A value that JSON has, told by its parts: no other atoms than those of JSON, no other numbers
than finite ones, and texts for the names of all fields. -/
inductive OfJson : Value → Prop where
  | null : OfJson .null
  | bool (b : Bool) : OfJson (.bool b)
  | int (n : Int) : OfJson (.int n)
  | float {x : Double} (finite : x.isFinite) : OfJson (.float x)
  | text (s : String) : OfJson (.text s)
  | sequence {v : Value} {items : List Value} (members : v.items? = some items)
      (below : ∀ w ∈ items, OfJson w) : OfJson v
  | object {fields : Fields} (named : ∀ f ∈ fields, ∃ name, f.1 = .text name)
      (below : ∀ f ∈ fields, OfJson f.2) : OfJson (.object fields)

theorem OfJson.offence? {v : Value} (h : OfJson v) : v.offence? = none := by
  induction h with
  | float hfinite => exact (offence?_atom _).mpr (if_pos hfinite)
  | sequence hitems _ ih => exact (offence?_of_items? hitems).mpr ih
  | object hnamed _ ih => exact (offence?_object _).mpr fun f hf => ⟨hnamed f hf, ih f hf⟩
  | _ => rfl

theorem ofJson_of_offence? (v : Value) (h : v.offence? = none) : OfJson v := by
  induction v using parts_induction with
  | ofAtom a =>
    rw [offence?_atom] at h
    cases a with
    | null => exact .null
    | bool b => exact .bool b
    | int n => exact .int n
    | text s => exact .text s
    | float x => exact .float (by simpa [Atom.offence?] using h)
    | _ => cases h
  | ofItems hitems ih =>
    have hmembers := (offence?_of_items? hitems).mp h
    exact .sequence hitems fun w hw => ih w hw (hmembers w hw)
  | ofFields fields ih =>
    have hfields := (offence?_object fields).mp h
    exact .object (fun f hf => (hfields f hf).1) fun f hf => ih f hf (hfields f hf).2

/-- No offence is found in the values of JSON, and in no others. -/
theorem offence?_eq_none_iff_ofJson (v : Value) : v.offence? = none ↔ OfJson v :=
  ⟨ofJson_of_offence? v, OfJson.offence?⟩

/-! ## What is written -/

theorem allJsonable_eq (items : List Value) : allJsonable items = items.map jsonable := by
  induction items with
  | nil => rfl
  | cons v rest ih => rw [allJsonable, ih, List.map_cons]

theorem fieldsJsonable_eq (fields : Fields) :
    fieldsJsonable fields = fields.map fun f => (f.1, f.2.jsonable) := by
  induction fields with
  | nil => rfl
  | cons f rest ih => rw [fieldsJsonable, ih, List.map_cons]

theorem jsonable_atom {a : Atom} (h : a.offence? = none) : (atom a).jsonable = .atom a := by
  cases a with
  | missing => cases h
  | _ => rfl

theorem jsonable_of_items? {v : Value} {items : List Value} (h : v.items? = some items) :
    v.jsonable = .list (items.map jsonable) := by
  rcases items?_eq_some_iff.mp h with rfl | rfl
  · rw [jsonable, allJsonable_eq]
  · rw [jsonable, allJsonable_eq]

theorem jsonable_object (fields : Fields) :
    (object fields).jsonable = .object (fields.map fun f => (f.1, f.2.jsonable)) := by
  rw [jsonable, fieldsJsonable_eq]

/-- What is written for a proper value can be stored. -/
theorem Proper.storable_jsonable {v : Value} (h : Proper v) (hv : v.offence? = none) :
    v.jsonable.Storable := by
  induction h with
  | atom a =>
    have ha := (offence?_atom a).mp hv
    rw [jsonable_atom ha]
    exact .atom ha
  | sequence hmembers _ ih =>
    rw [jsonable_of_items? hmembers]
    refine .list fun w hw => ?_
    obtain ⟨w, hmem, rfl⟩ := List.mem_map.mp hw
    exact ih w hmem ((offence?_of_items? hmembers).mp hv w hmem)
  | @object fields hdistinct _ ih =>
    have hfields := (offence?_object fields).mp hv
    rw [jsonable_object, storable_object_iff, Fields.distinct_iff, List.map_map]
    refine ⟨(Fields.distinct_iff fields).mp hdistinct, fun f hf => ?_⟩
    obtain ⟨g, hg, rfl⟩ := List.mem_map.mp hf
    exact ⟨(hfields g hg).1, ih g hg (hfields g hg).2⟩

end Value

end PageBuilder
