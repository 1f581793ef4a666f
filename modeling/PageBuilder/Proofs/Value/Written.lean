import PageBuilder.Proofs.Value.Fields
import PageBuilder.Proofs.Value.SameJson

/-!
What is written for values: null for the missing marker, lists for sequences of fixed length, at
every depth.

* `Fields.jsonable`: the fields of an object, as they are written;
* `Value.Part`: what is found in a value at some depth;
* `Value.Part.jsonable`: what is written holds nothing but written parts, so no marker and no
  sequence of fixed length;
* `Value.Cleaned`, `Value.cleaned_iff`: what is written, said without the function that writes it.
-/

namespace PageBuilder

/-! ## Written fields -/

/-- The fields as they are written. -/
def Fields.jsonable (fields : Fields) : Fields := fields.map fun f => (f.1, f.2.jsonable)

namespace Fields

@[simp] theorem jsonable_cons (k : Key) (v : Value) (fields : Fields) :
    jsonable ((k, v) :: fields) = (k, v.jsonable) :: jsonable fields := rfl

theorem jsonable_put (fields : Fields) (k : Key) (v : Value) :
    jsonable (put fields k v) = put (jsonable fields) k v.jsonable := by
  induction fields with
  | nil => rfl
  | cons field rest ih =>
    obtain ⟨j, w⟩ := field
    cases hj : j.alike k with
    | true => simp [put, hj]
    | false => simp [put, hj, ih]

end Fields

namespace Value

theorem jsonable_object_set (fields : Fields) (name : String) (v : Value) :
    (object (Fields.set fields name v)).jsonable =
      .object (Fields.set (Fields.jsonable fields) name v.jsonable) := by
  rw [jsonable_object]
  exact congrArg object (Fields.jsonable_put ..)

/-! ## Parts -/

/-- A value, the items of its sequences and the values of its fields, at every depth. Names of
fields are no parts. -/
inductive Part (w : Value) : Value → Prop where
  | whole : Part w w
  | item {u v : Value} {items : List Value} (members : v.items? = some items) (mem : u ∈ items)
      (part : Part w u) : Part w v
  | field {fields : Fields} {f : Key × Value} (mem : f ∈ fields) (part : Part w f.2) :
      Part w (.object fields)

/-- A written value is a sequence just if the value is one. -/
theorem items?_jsonable (v : Value) : v.jsonable.items? = v.items?.map (List.map jsonable) := by
  cases v with
  | atom a => cases a <;> rfl
  | list items => rw [jsonable_of_items? rfl]; rfl
  | tuple items => rw [jsonable_of_items? rfl]; rfl
  | object fields => rfl

theorem eq_object_of_jsonable {v : Value} {written : Fields} (h : v.jsonable = .object written) :
    ∃ fields, v = .object fields ∧ written = Fields.jsonable fields := by
  cases v with
  | atom a => cases a <;> cases h
  | list items => cases h
  | tuple items => cases h
  | object fields =>
    rw [jsonable_object] at h
    cases h
    exact ⟨fields, rfl, rfl⟩

/-- What is written holds nothing but written parts. -/
theorem Part.jsonable {v w : Value} (h : Part w v.jsonable) : ∃ u, Part u v ∧ w = u.jsonable := by
  generalize hwritten : v.jsonable = written at h
  induction h generalizing v with
  | whole => exact ⟨v, .whole, hwritten.symm⟩
  | item hmembers hmem _ ih =>
    rw [← hwritten, items?_jsonable] at hmembers
    obtain ⟨items, hitems, rfl⟩ := Option.map_eq_some_iff.mp hmembers
    obtain ⟨x, hx, hxu⟩ := List.mem_map.mp hmem
    obtain ⟨u, hu, heq⟩ := ih hxu
    exact ⟨u, .item hitems hx hu, heq⟩
  | field hmem _ ih =>
    obtain ⟨fields, rfl, rfl⟩ := eq_object_of_jsonable hwritten
    obtain ⟨g, hg, rfl⟩ := List.mem_map.mp hmem
    obtain ⟨u, hu, heq⟩ := ih rfl
    exact ⟨u, .field hg hu, heq⟩

theorem jsonable_ne_missing (v : Value) : v.jsonable ≠ .missing := by
  cases v with
  | atom a => cases a <;> exact nofun
  | _ => exact nofun

theorem jsonable_ne_tuple (v : Value) (items : List Value) : v.jsonable ≠ .tuple items := by
  cases v with
  | atom a => cases a <;> exact nofun
  | _ => exact nofun

/-- In what is written objects have the names that they had. -/
theorem Part.names {v : Value} {written : Fields} (h : Part (.object written) v.jsonable) :
    ∃ fields, Part (.object fields) v ∧ written.map Prod.fst = fields.map Prod.fst := by
  obtain ⟨u, hu, heq⟩ := h.jsonable
  obtain ⟨fields, rfl, rfl⟩ := eq_object_of_jsonable heq.symm
  refine ⟨fields, hu, ?_⟩
  rw [Fields.jsonable, List.map_map]
  rfl

/-! ## The written value, without a function -/

/-- A value and what is written for it. Marker and sequences of fixed length do not stay what they
are; other atoms do, and so do the names of fields, whatever they are. -/
inductive Cleaned : Value → Value → Prop where
  | missing : Cleaned .missing .null
  | atom {a : Atom} (present : a ≠ .missing) : Cleaned (.atom a) (.atom a)
  | sequence {v : Value} {items made : List Value} (members : v.items? = some items)
      (length : items.length = made.length) (each : ∀ p ∈ items.zip made, Cleaned p.1 p.2) :
      Cleaned v (.list made)
  | object {fields made : Fields} (length : fields.length = made.length)
      (names : ∀ p ∈ fields.zip made, p.2.1 = p.1.1)
      (each : ∀ p ∈ fields.zip made, Cleaned p.1.2 p.2.2) :
      Cleaned (.object fields) (.object made)

theorem mem_zip_map_right {α β : Type} {f : α → β} {items : List α} {p : α × β}
    (h : p ∈ items.zip (items.map f)) : p.1 ∈ items ∧ p.2 = f p.1 := by
  induction items with
  | nil => cases h
  | cons a rest ih =>
    rcases List.mem_cons.mp h with rfl | h
    · exact ⟨List.mem_cons_self .., rfl⟩
    · exact ⟨List.mem_cons_of_mem _ (ih h).1, (ih h).2⟩

theorem eq_map_of_zip {α β : Type} {f : α → β} {items : List α} {made : List β}
    (length : items.length = made.length) (h : ∀ p ∈ items.zip made, p.2 = f p.1) :
    made = items.map f := by
  induction items generalizing made with
  | nil => exact List.eq_nil_of_length_eq_zero length.symm
  | cons a rest ih =>
    cases made with
    | nil => cases length
    | cons b others =>
      rw [List.zip_cons_cons, List.forall_mem_cons] at h
      rw [List.map_cons, ← h.1, ← ih (Nat.succ.inj length) h.2]

theorem cleaned_jsonable (v : Value) : Cleaned v v.jsonable := by
  induction v using parts_induction with
  | ofAtom a =>
    by_cases ha : a = .missing
    · rw [ha]
      exact .missing
    · have hself : (Value.atom a).jsonable = .atom a := by
        cases a with
        | missing => exact absurd rfl ha
        | _ => rfl
      rw [hself]
      exact .atom ha
  | ofItems hitems ih =>
    rw [jsonable_of_items? hitems]
    refine .sequence hitems (List.length_map _).symm fun p hp => ?_
    obtain ⟨hmem, heq⟩ := mem_zip_map_right hp
    rw [heq]
    exact ih p.1 hmem
  | ofFields fields ih =>
    rw [jsonable_object]
    refine .object (List.length_map _).symm (fun p hp => ?_) fun p hp => ?_
    · rw [(mem_zip_map_right hp).2]
    · obtain ⟨hmem, heq⟩ := mem_zip_map_right hp
      rw [heq]
      exact ih p.1 hmem

/-- What is written is told by the relation, and by it alone. -/
theorem cleaned_iff (v w : Value) : Cleaned v w ↔ w = v.jsonable := by
  constructor
  · intro h
    induction h with
    | missing => rfl
    | @atom a hpresent =>
      cases a with
      | missing => exact absurd rfl hpresent
      | _ => rfl
    | sequence hmembers hlength _ ih =>
      rw [jsonable_of_items? hmembers, eq_map_of_zip hlength ih]
    | object hlength hnames _ ih =>
      rw [jsonable_object, ← eq_map_of_zip hlength fun p hp => Prod.ext (hnames p hp) (ih p hp)]
  · rintro rfl
    exact cleaned_jsonable v

end Value

end PageBuilder
