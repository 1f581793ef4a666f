import PageBuilder.Issue
import PageBuilder.Proofs.Value.Fields
import PageBuilder.Value.JsonLike

/-!
Proper objects, in which no name occurs twice, and the values that JSON text can hold.

* `Fields.Distinct`: fields with different names, which are kept by every change of fields;
* `Value.Plain`: a value of proper objects and without sequences of fixed length;
* `Value.fieldsOffence?_eq_none_iff`: fields without an offence, said without the search for one;
* `Value.Storable`: the plain values without an offence;
* `Value.Spelled`: the values that have a text, with words for numbers that are not finite.
-/

namespace PageBuilder

/-! ## Distinct names -/

namespace Fields

/-- No field has the name of an earlier one. -/
def Distinct (fields : Fields) : Prop := fields.Pairwise fun f g => f.1.alike g.1 = false

/-- A field after a change is one from before, or has the new value and the new name or one from
before. -/
theorem mem_put {fields : Fields} {k : Key} {v : Value} {f : Key × Value}
    (h : f ∈ put fields k v) :
    f ∈ fields ∨ f.2 = v ∧ (f.1 = k ∨ ∃ g ∈ fields, f.1 = g.1) := by
  induction fields with
  | nil =>
    rw [put, List.mem_singleton] at h
    rw [h]
    exact .inr ⟨rfl, .inl rfl⟩
  | cons field rest ih =>
    obtain ⟨j, w⟩ := field
    unfold put at h
    split at h
    · rcases List.mem_cons.mp h with rfl | h
      · exact .inr ⟨rfl, .inr ⟨_, List.mem_cons_self .., rfl⟩⟩
      · exact .inl (List.mem_cons_of_mem _ h)
    · rcases List.mem_cons.mp h with rfl | h
      · exact .inl (List.mem_cons_self ..)
      · rcases ih h with h | ⟨heq, h | ⟨g, hg, h⟩⟩
        · exact .inl (List.mem_cons_of_mem _ h)
        · exact .inr ⟨heq, .inl h⟩
        · exact .inr ⟨heq, .inr ⟨g, List.mem_cons_of_mem _ hg, h⟩⟩

/-- A name that was met is kept as it was met. -/
theorem map_fst_put {fields : Fields} {k : Key} (v : Value)
    (h : ∃ f ∈ fields, f.1.alike k = true) :
    (put fields k v).map Prod.fst = fields.map Prod.fst := by
  induction fields with
  | nil =>
    obtain ⟨f, hf, -⟩ := h
    cases hf
  | cons field rest ih =>
    obtain ⟨j, w⟩ := field
    by_cases hj : j.alike k = true
    · simp [put, hj]
    · obtain ⟨f, hf, hk⟩ := h
      rcases List.mem_cons.mp hf with rfl | hf
      · exact absurd hk hj
      · simp [put, hj, ih ⟨f, hf, hk⟩]

/-- A new name is put at the end. -/
theorem put_of_new {fields : Fields} {k : Key} (v : Value)
    (h : ∀ f ∈ fields, f.1.alike k = false) : put fields k v = fields ++ [(k, v)] := by
  induction fields with
  | nil => rfl
  | cons field rest ih =>
    have hrest := ih fun f hf => h f (List.mem_cons_of_mem _ hf)
    have hfirst := h field (List.mem_cons_self ..)
    simp [put, hfirst, hrest]

theorem distinct_iff (fields : Fields) :
    Distinct fields ↔ (fields.map Prod.fst).Pairwise fun j k => j.alike k = false := by
  rw [List.pairwise_map, Distinct]

theorem Distinct.put {fields : Fields} (h : Distinct fields) (k : Key) (v : Value) :
    Distinct (put fields k v) := by
  by_cases hmet : ∃ f ∈ fields, f.1.alike k = true
  · rw [distinct_iff, map_fst_put v hmet, ← distinct_iff]
    exact h
  · have hnew : ∀ f ∈ fields, f.1.alike k = false := by
      intro f hf
      rw [Bool.eq_false_iff]
      exact fun hk => hmet ⟨f, hf, hk⟩
    rw [put_of_new v hnew]
    refine List.pairwise_append.mpr ⟨h, List.pairwise_singleton .., ?_⟩
    intro f hf g hg
    rw [List.mem_singleton] at hg
    rw [hg]
    exact hnew f hf

theorem Distinct.merge {fields : Fields} (h : Distinct fields) (news : Fields) :
    Distinct (merge fields news) := by
  induction news generalizing fields with
  | nil => exact h
  | cons f rest ih => exact ih (h.put f.1 f.2)

theorem Distinct.filter {fields : Fields} (h : Distinct fields) (p : Key × Value → Bool) :
    Distinct (fields.filter p) := List.Pairwise.filter p h

/-- New fields with different names are put at the end, one after the other. -/
theorem merge_of_distinct {fields news : Fields} (h : Distinct (fields ++ news)) :
    merge fields news = fields ++ news := by
  induction news generalizing fields with
  | nil => rw [List.append_nil]; rfl
  | cons f rest ih =>
    obtain ⟨-, -, hcross⟩ := List.pairwise_append.mp h
    have hput : put fields f.1 f.2 = fields ++ [f] :=
      put_of_new f.2 fun g hg => hcross g hg f (List.mem_cons_self ..)
    show merge (put fields f.1 f.2) rest = _
    rw [hput, ih (by rwa [List.append_assoc, List.singleton_append]), List.append_assoc,
      List.singleton_append]

/-- Pairs with different names are the fields of an object as they are. -/
theorem ofPairs_of_distinct {pairs : Fields} (h : Distinct pairs) : ofPairs pairs = pairs :=
  merge_of_distinct h

section Kinds

variable {N : Key → Prop} {P : Value → Prop} {fields : Fields}

/-- A change keeps names and values of a kind if the new ones are of that kind. -/
theorem forall_mem_put (h : ∀ f ∈ fields, N f.1 ∧ P f.2) {k : Key} {v : Value} (hk : N k)
    (hv : P v) : ∀ f ∈ put fields k v, N f.1 ∧ P f.2 := by
  intro f hf
  rcases mem_put hf with hf | ⟨hvalue, hname | ⟨g, hg, hname⟩⟩
  · exact h f hf
  · rw [hvalue, hname]
    exact ⟨hk, hv⟩
  · rw [hvalue, hname]
    exact ⟨(h g hg).1, hv⟩

theorem forall_mem_merge (h : ∀ f ∈ fields, N f.1 ∧ P f.2) {news : Fields}
    (hnews : ∀ f ∈ news, N f.1 ∧ P f.2) : ∀ f ∈ merge fields news, N f.1 ∧ P f.2 := by
  induction news generalizing fields with
  | nil => exact h
  | cons f rest ih =>
    obtain ⟨⟨hk, hv⟩, hrest⟩ := List.forall_mem_cons.mp hnews
    exact ih (forall_mem_put h hk hv) hrest

end Kinds

/-- Of fields with different names each one is found by its name. -/
theorem get?_of_mem {fields : Fields} (h : Distinct fields) {name : String} {v : Value}
    (hv : (Key.text name, v) ∈ fields) : get? fields name = some v := by
  induction fields with
  | nil => cases hv
  | cons f rest ih =>
    obtain ⟨k, w⟩ := f
    obtain ⟨hfirst, hrest⟩ := List.pairwise_cons.mp h
    unfold get? find?
    rcases List.mem_cons.mp hv with heq | hv
    · cases heq
      rw [if_pos ((Key.alike_text_iff _ _).mpr rfl)]
    · rw [if_neg (by simp [show k.alike (.text name) = false from hfirst _ hv])]
      exact ih hrest hv

theorem distinct_texts_iff (pairs : List (String × Value)) :
    Distinct (pairs.map fun p => (.text p.1, p.2)) ↔ (pairs.map Prod.fst).Nodup := by
  unfold Distinct List.Nodup
  rw [List.pairwise_map, List.pairwise_map]
  refine List.Pairwise.iff fun p q => ?_
  simp [Bool.eq_false_iff, Key.alike_text_iff]

end Fields

namespace Value

/-! ## Plain values -/

/-- A value of proper objects and without sequences of fixed length, in names as in values. -/
inductive Plain : Value → Prop where
  | atom (a : Atom) : Plain (.atom a)
  | list {items : List Value} (items_plain : ∀ v ∈ items, Plain v) : Plain (.list items)
  | object {fields : Fields} (distinct : Fields.Distinct fields)
      (atomic : ∀ f ∈ fields, ∃ a, f.1 = .atom a)
      (fields_plain : ∀ f ∈ fields, Plain f.2) : Plain (.object fields)

@[simp] theorem plain_atom (a : Atom) : Plain (.atom a) := .atom a

@[simp] theorem plain_list_iff (items : List Value) :
    Plain (.list items) ↔ ∀ v ∈ items, Plain v := by
  constructor
  · intro h
    cases h with
    | list hitems => exact hitems
  · exact .list

theorem plain_object_iff (fields : Fields) : Plain (.object fields) ↔
    Fields.Distinct fields ∧ ∀ f ∈ fields, (∃ a, f.1 = .atom a) ∧ Plain f.2 := by
  constructor
  · intro h
    cases h with
    | object hdistinct hatomic hfields =>
      exact ⟨hdistinct, fun f hf => ⟨hatomic f hf, hfields f hf⟩⟩
  · rintro ⟨hdistinct, hfields⟩
    exact .object hdistinct (fun f hf => (hfields f hf).1) fun f hf => (hfields f hf).2

@[simp] theorem plain_empty : Plain (.object []) :=
  (plain_object_iff []).mpr ⟨.nil, fun _ hf => by cases hf⟩

@[simp] theorem plain_ofFields_iff (pairs : List (String × Value)) :
    Plain (.ofFields pairs) ↔ (pairs.map Prod.fst).Nodup ∧ ∀ p ∈ pairs, Plain p.2 := by
  rw [ofFields, plain_object_iff, Fields.distinct_texts_iff, List.forall_mem_map]
  simp

/-! ## Parts of plain values -/

theorem Plain.get? {v w : Value} {name : String} (h : Plain v) (hw : v.get? name = some w) :
    Plain w := by
  obtain ⟨fields, hfields, hget⟩ := Option.bind_eq_some_iff.mp hw
  cases v with
  | object fields =>
    cases hfields
    exact (((plain_object_iff fields).mp h).2 _ (Fields.mem_of_get? hget)).2
  | _ => cases hfields

theorem Plain.field {v : Value} (h : Plain v) (name : String) : Plain (v.field name) := by
  rw [Value.field_eq]
  cases hw : v.get? name with
  | none => exact .atom _
  | some w => exact h.get? hw

theorem Plain.children {v : Value} (h : Plain v) : ∀ c ∈ v.children, Plain c := by
  intro c hc
  obtain ⟨items, hget, hmem⟩ := exists_of_mem_children hc
  exact (plain_list_iff items).mp (h.get? hget) c hmem

/-! ## Changes of fields -/

section Changes

variable {fields news : Fields}

theorem Plain.put (h : Plain (.object fields)) (a : Atom) {v : Value} (hv : Plain v) :
    Plain (.object (Fields.put fields (.atom a) v)) := by
  obtain ⟨hdistinct, hfields⟩ := (plain_object_iff fields).mp h
  exact (plain_object_iff _).mpr
    ⟨hdistinct.put _ _, Fields.forall_mem_put (N := fun k => ∃ a, k = .atom a) hfields ⟨a, rfl⟩ hv⟩

theorem Plain.set (h : Plain (.object fields)) (name : String) {v : Value} (hv : Plain v) :
    Plain (.object (Fields.set fields name v)) := h.put _ hv

theorem Plain.merge (h : Plain (.object fields))
    (hnews : ∀ f ∈ news, (∃ a, f.1 = .atom a) ∧ Plain f.2) :
    Plain (.object (Fields.merge fields news)) := by
  obtain ⟨hdistinct, hfields⟩ := (plain_object_iff fields).mp h
  exact (plain_object_iff _).mpr
    ⟨hdistinct.merge news, Fields.forall_mem_merge (N := fun k => ∃ a, k = .atom a) hfields hnews⟩

theorem Plain.erase (h : Plain (.object fields)) (name : String) :
    Plain (.object (Fields.erase fields name)) := by
  obtain ⟨hdistinct, hfields⟩ := (plain_object_iff fields).mp h
  exact (plain_object_iff _).mpr
    ⟨hdistinct.filter _, fun f hf => hfields f (List.mem_filter.mp hf).1⟩

end Changes

/-! ## Offences -/

theorem itemsOffence?_eq_none_iff (index : Nat) (items : List Value) :
    itemsOffence? index items = none ↔ ∀ v ∈ items, v.offence? = none := by
  induction items generalizing index with
  | nil => simp [itemsOffence?]
  | cons v rest ih =>
    rw [itemsOffence?, List.forall_mem_cons]
    cases h : v.offence? with
    | none => simp [ih]
    | some o => simp

theorem fieldsOffence?_eq_none_iff (fields : Fields) :
    fieldsOffence? fields = none ↔
      ∀ f ∈ fields, (∃ name, f.1 = .text name) ∧ f.2.offence? = none := by
  induction fields with
  | nil => simp [fieldsOffence?]
  | cons field rest ih =>
    obtain ⟨k, v⟩ := field
    rw [List.forall_mem_cons]
    by_cases hk : ∃ name, k = .text name
    · obtain ⟨name, rfl⟩ := hk
      rw [fieldsOffence?]
      cases h : v.offence? with
      | none => simp [ih]
      | some o => simp
    · rw [fieldsOffence?]
      · simp [hk]
      · exact fun name h => hk ⟨name, h⟩

theorem offence?_atom (a : Atom) : (atom a).offence? = none ↔ a.offence? = none := by
  rw [offence?, Option.map_eq_none_iff]

theorem offence?_object (fields : Fields) :
    (object fields).offence? = none ↔
      ∀ f ∈ fields, (∃ name, f.1 = .text name) ∧ f.2.offence? = none := by
  rw [offence?, fieldsOffence?_eq_none_iff]

/-- The values that JSON text can hold: every number is finite, and fields have different texts for
their names. -/
inductive Storable : Value → Prop where
  | atom {a : Atom} (h : a.offence? = none) : Storable (.atom a)
  | list {items : List Value} (items_storable : ∀ v ∈ items, Storable v) : Storable (.list items)
  | object {fields : Fields} (distinct : Fields.Distinct fields)
      (named : ∀ f ∈ fields, ∃ name, f.1 = .text name)
      (fields_storable : ∀ f ∈ fields, Storable f.2) : Storable (.object fields)

theorem Plain.storable {v : Value} (h : Plain v) (hv : v.offence? = none) : Storable v := by
  induction h with
  | atom a => exact .atom ((offence?_atom a).mp hv)
  | list hitems ih =>
    rw [offence?, itemsOffence?_eq_none_iff] at hv
    exact .list fun v hmem => ih v hmem (hv v hmem)
  | object hdistinct _ hfields ih =>
    rw [offence?_object] at hv
    exact .object hdistinct (fun f hf => (hv f hf).1) fun f hf => ih f hf (hv f hf).2

@[simp] theorem storable_atom_iff (a : Atom) : Storable (.atom a) ↔ a.offence? = none := by
  constructor
  · intro h
    cases h with
    | atom ha => exact ha
  · exact .atom

@[simp] theorem storable_list_iff (items : List Value) :
    Storable (.list items) ↔ ∀ v ∈ items, Storable v := by
  constructor
  · intro h
    cases h with
    | list hitems => exact hitems
  · exact .list

theorem storable_object_iff (fields : Fields) : Storable (.object fields) ↔
    Fields.Distinct fields ∧ ∀ f ∈ fields, (∃ name, f.1 = .text name) ∧ Storable f.2 := by
  constructor
  · intro h
    cases h with
    | object hdistinct hnamed hfields =>
      exact ⟨hdistinct, fun f hf => ⟨hnamed f hf, hfields f hf⟩⟩
  · rintro ⟨hdistinct, hfields⟩
    exact .object hdistinct (fun f hf => (hfields f hf).1) fun f hf => (hfields f hf).2

@[simp] theorem storable_empty : Storable (.object []) :=
  .object .nil (List.forall_mem_nil _) (List.forall_mem_nil _)

@[simp] theorem storable_ofFields_iff (pairs : List (String × Value)) :
    Storable (.ofFields pairs) ↔ (pairs.map Prod.fst).Nodup ∧ ∀ p ∈ pairs, Storable p.2 := by
  rw [ofFields, storable_object_iff, Fields.distinct_texts_iff, List.forall_mem_map]
  simp

theorem Storable.plain {v : Value} (h : Storable v) : Plain v := by
  induction h with
  | atom _ => exact .atom _
  | list _ ih => exact .list ih
  | object hdistinct hnamed _ ih =>
    refine .object hdistinct (fun f hf => ?_) ih
    obtain ⟨name, hname⟩ := hnamed f hf
    exact ⟨_, hname⟩

theorem Storable.offence? {v : Value} (h : Storable v) : v.offence? = none := by
  induction h with
  | atom ha => rw [Value.offence?, ha, Option.map_none]
  | list _ ih =>
    rw [Value.offence?, itemsOffence?_eq_none_iff]
    exact ih
  | object _ hnamed _ ih =>
    rw [offence?_object]
    exact fun f hf => ⟨hnamed f hf, ih f hf⟩

/-! ## Atoms of a kind -/

/-- Lists and proper objects with texts for names, down to atoms of a kind. -/
inductive MadeOf (p : Atom → Prop) : Value → Prop where
  | atom {a : Atom} (h : p a) : MadeOf p (.atom a)
  | list {items : List Value} (items_made : ∀ v ∈ items, MadeOf p v) : MadeOf p (.list items)
  | object {fields : Fields} (distinct : Fields.Distinct fields)
      (named : ∀ f ∈ fields, ∃ name, f.1 = .text name)
      (fields_made : ∀ f ∈ fields, MadeOf p f.2) : MadeOf p (.object fields)

section MadeOf

variable {p : Atom → Prop}

theorem madeOf_object_iff (fields : Fields) : MadeOf p (.object fields) ↔
    Fields.Distinct fields ∧ ∀ f ∈ fields, (∃ name, f.1 = .text name) ∧ MadeOf p f.2 := by
  constructor
  · intro h
    cases h with
    | object hdistinct hnamed hfields =>
      exact ⟨hdistinct, fun f hf => ⟨hnamed f hf, hfields f hf⟩⟩
  · rintro ⟨hdistinct, hfields⟩
    exact .object hdistinct (fun f hf => (hfields f hf).1) fun f hf => (hfields f hf).2

theorem madeOf_ofFields_iff (pairs : List (String × Value)) :
    MadeOf p (.ofFields pairs) ↔ (pairs.map Prod.fst).Nodup ∧ ∀ f ∈ pairs, MadeOf p f.2 := by
  rw [ofFields, madeOf_object_iff, Fields.distinct_texts_iff, List.forall_mem_map]
  simp

theorem madeOf_ofPairs {pairs : Fields}
    (h : ∀ f ∈ pairs, (∃ name, f.1 = .text name) ∧ MadeOf p f.2) :
    MadeOf p (.object (Fields.ofPairs pairs)) := by
  refine (madeOf_object_iff _).mpr ⟨Fields.Distinct.merge .nil pairs, ?_⟩
  exact Fields.forall_mem_merge (N := fun k => ∃ name, k = .text name) (List.forall_mem_nil _) h

theorem MadeOf.plain {v : Value} (h : MadeOf p v) : Plain v := by
  induction h with
  | atom _ => exact .atom _
  | list _ ih => exact .list ih
  | object hdistinct hnamed _ ih =>
    refine .object hdistinct (fun f hf => ?_) ih
    obtain ⟨name, hname⟩ := hnamed f hf
    exact ⟨_, hname⟩

theorem MadeOf.mono {q : Atom → Prop} (hpq : ∀ a, p a → q a) {v : Value} (h : MadeOf p v) :
    MadeOf q v := by
  induction h with
  | atom ha => exact .atom (hpq _ ha)
  | list _ ih => exact .list ih
  | object hdistinct hnamed _ ih => exact .object hdistinct hnamed ih

theorem storable_iff_madeOf (v : Value) : Storable v ↔ v.MadeOf fun a => a.offence? = none := by
  constructor
  · intro h
    induction h with
    | atom ha => exact .atom ha
    | list _ ih => exact .list ih
    | object hdistinct hnamed _ ih => exact .object hdistinct hnamed ih
  · intro h
    induction h with
    | atom ha => exact .atom ha
    | list _ ih => exact .list ih
    | object hdistinct hnamed _ ih => exact .object hdistinct hnamed ih

end MadeOf

/-- The values that have a text. -/
def Spelled (v : Value) : Prop := v.MadeOf fun a => a.offence? = none ∨ ∃ x, a = .float x

theorem Storable.spelled {v : Value} (h : Storable v) : Spelled v :=
  ((storable_iff_madeOf v).mp h).mono fun _ ha => .inl ha

theorem Spelled.isMissing {v : Value} (h : Spelled v) : v.isMissing = false := by
  cases h with
  | @atom a ha =>
    cases a with
    | missing =>
      rcases ha with ha | ⟨x, hx⟩
      · cases ha
      · cases hx
    | _ => rfl
  | list _ => rfl
  | object _ _ _ => rfl

end Value

end PageBuilder
