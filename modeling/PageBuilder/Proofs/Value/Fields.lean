import PageBuilder.Value.Children

/-!
Laws of the fields of an object, as seen through the names that a page tree reads.

* `get?_put`: what is read of a name after a field was put;
* `get?_merge`: whatever holds of a name in both objects holds of it in the merged one;
* `get?_merge_eq`, `get?_merge_congr`: a name that the news lack is read of the old object, and one
  that they have is not;
* `put_set_comm`, `merge_set`: where a name is in use, it and other keys can be set in any order;
* `set_eq_self`, `erase_eq_self`: a field that is set to the value it has, or erased where there is
  none, changes nothing;
* `Value.sizeOf_lt_of_mem_children` and `Value.children_induction`: what passes from the children
  of a value to the value holds of all values;
* `Value.forest_induction`: the same of values beside one another.
-/

namespace PageBuilder

theorem Key.text_alike_iff (s : String) (k : Key) : (Key.text s).alike k = true ↔ k = .text s := by
  cases k with
  | atom a =>
    cases a with
    | text t =>
      show (s == t) = true ↔ _
      rw [beq_iff_eq]
      exact ⟨fun h => by rw [h], fun h => by cases h; rfl⟩
    | _ => simp [Key.alike, Atom.alike, Atom.same, Atom.int?]
  | tuple items => simp [Key.alike]

/-- Only a text equals a text. -/
@[simp] theorem Value.same_text_iff (v : Value) (s : String) :
    v.same (.text s) = true ↔ v = .text s := by
  cases v with
  | atom a => cases a <;> simp [Value.same, Atom.same, Atom.int?]
  | _ => simp [Value.same, Value.alike]

/-- A text equals only a text. -/
theorem Value.text_same_iff (s : String) (v : Value) :
    (Value.text s).same v = true ↔ v = .text s := by
  cases v with
  | atom a =>
    cases a with
    | text t =>
      show (s == t) = true ↔ _
      rw [beq_iff_eq]
      exact ⟨fun h => by rw [h], fun h => by cases h; rfl⟩
    | _ => simp [Value.same, Atom.same, Atom.int?]
  | _ => simp [Value.same, Value.alike]

theorem Value.text_alike_iff (s : String) (v : Value) :
    (Value.text s).alike v = true ↔ v = .text s := by
  cases v with
  | atom a =>
    cases a with
    | text t =>
      show (s == t) = true ↔ _
      rw [beq_iff_eq]
      exact ⟨fun h => by rw [h], fun h => by cases h; rfl⟩
    | _ => simp [Value.alike, Atom.alike, Atom.same, Atom.int?]
  | _ => simp [Value.alike]

theorem Value.same_text_eq_false {v : Value} {s : String} (h : v ≠ .text s) :
    v.same (.text s) = false := by
  rw [Bool.eq_false_iff, Ne, same_text_iff]
  exact h

theorem Value.isTextOf_iff (v : Value) (s : String) : v.isTextOf s = true ↔ v = .text s :=
  v.same_text_iff s

theorem Value.isTextOf_eq_false {v : Value} {s : String} (h : v ≠ .text s) :
    v.isTextOf s = false := Value.same_text_eq_false h

namespace Fields

/-! ## Reading after writing -/

theorem find?_put (fields : Fields) (k : Key) (name : String) (v : Value) :
    find? (put fields k v) (.text name) =
      if k.alike (.text name) then some v else find? fields (.text name) := by
  induction fields with
  | nil => rfl
  | cons field rest ih =>
    obtain ⟨j, w⟩ := field
    by_cases hj : j.alike k = true
    · by_cases hk : k.alike (.text name) = true
      · have heq : j.alike (.text name) = true := by
          rw [Key.alike_text_iff] at hk
          rw [← hk]
          exact hj
        simp [put, find?, hj, hk, heq]
      · have hne : j.alike (.text name) = false := by
          rw [Bool.eq_false_iff, Ne, Key.alike_text_iff]
          intro h
          subst h
          rw [(Key.text_alike_iff name k).mp hj, Key.alike_text_iff] at hk
          exact hk rfl
        simp [put, find?, hj, hk, hne]
    · by_cases hk : k.alike (.text name) = true
      · have hne : j.alike (.text name) = false := by
          rw [Key.alike_text_iff] at hk
          rw [← hk]
          exact Bool.eq_false_iff.mpr hj
        simp [put, find?, hj, hk, hne, ih]
      · simp [put, find?, hj, hk, ih]

theorem get?_put (fields : Fields) (k : Key) (name : String) (v : Value) :
    get? (put fields k v) name = if k.alike (.text name) then some v else get? fields name :=
  find?_put fields k name v

/-- A named field that is set leaves what all other keys lead to. -/
theorem find?_set_of_ne (fields : Fields) {name : String} {k : Key} (v : Value)
    (hne : k ≠ .text name) : find? (set fields name v) k = find? fields k := by
  have hk : (Key.text name).alike k = false := by
    rw [Bool.eq_false_iff, Ne, Key.text_alike_iff]
    exact hne
  unfold set
  induction fields with
  | nil => simp [put, find?, hk]
  | cons field rest ih =>
    obtain ⟨j, w⟩ := field
    by_cases hj : j = .text name
    · subst hj
      simp [put, find?, hk, Key.alike_text_iff]
    · simp [put, find?, hj, Key.alike_text_iff, ih]

theorem find?_erase_of_ne (fields : Fields) {name : String} {k : Key} (hne : k ≠ .text name) :
    find? (erase fields name) k = find? fields k := by
  have hk : (Key.text name).alike k = false := by
    rw [Bool.eq_false_iff, Ne, Key.text_alike_iff]
    exact hne
  unfold erase
  induction fields with
  | nil => rfl
  | cons field rest ih =>
    obtain ⟨j, w⟩ := field
    cases hj : j.alike (.text name) with
    | true =>
      rw [Key.alike_text_iff] at hj
      subst hj
      simpa [find?, hk, Key.alike_text_iff] using ih
    | false => simp [find?, hj, ih]

@[simp] theorem field_set (fields : Fields) (name : String) (v : Value) :
    field (set fields name v) name = v := by
  rw [field, get?_set, Option.getD_some]

theorem field_set_of_ne (fields : Fields) {name other : String} (v : Value) (hne : other ≠ name) :
    field (set fields name v) other = field fields other := by
  rw [field, get?_set_of_ne fields v hne, field]

theorem field_erase_of_ne (fields : Fields) {name other : String} (hne : other ≠ name) :
    field (erase fields name) other = field fields other := by
  rw [field, get?_erase_of_ne fields hne, field]

/-- What holds of a name in an object, and of every value that the news have for it, holds of it
after the news are put in. -/
theorem get?_merge {P : Option Value → Prop} {fields news : Fields} {name : String}
    (hold : P (get? fields name)) (hnews : ∀ v, (Key.text name, v) ∈ news → P (some v)) :
    P (get? (merge fields news) name) := by
  induction news generalizing fields with
  | nil => exact hold
  | cons field rest ih =>
    obtain ⟨k, v⟩ := field
    apply ih
    · rw [get?_put]
      split
      · rename_i h
        rw [Key.alike_text_iff] at h
        subst h
        exact hnews v (List.mem_cons_self ..)
      · exact hold
    · exact fun w hw => hnews w (List.mem_cons_of_mem _ hw)

theorem get?_cons {k : Key} {v : Value} {rest : Fields} {name : String} :
    get? ((k, v) :: rest) name = if k.alike (.text name) then some v else get? rest name := rfl

/-- Of a name the merged object has what the news have, or else what the old object has. -/
theorem get?_merge_eq (fields news : Fields) (name : String) (h : get? news name = none) :
    get? (merge fields news) name = get? fields name := by
  induction news generalizing fields with
  | nil => rfl
  | cons field rest ih =>
    obtain ⟨k, v⟩ := field
    rw [get?_cons] at h
    split at h
    · cases h
    · rename_i hk
      show get? (merge (put fields k v) rest) name = _
      rw [ih _ h, get?_put, if_neg hk]

/-- What the merged object has of a name is told by the news alone, if they have the name. -/
theorem get?_merge_congr {fields others news : Fields} {name : String}
    (h : get? fields name = get? others name ∨ (get? news name).isSome) :
    get? (merge fields news) name = get? (merge others news) name := by
  induction news generalizing fields others with
  | nil =>
    rcases h with h | h
    · exact h
    · cases h
  | cons field rest ih =>
    obtain ⟨k, v⟩ := field
    apply ih
    rw [get?_cons] at h
    rw [get?_put, get?_put]
    split
    · exact .inl rfl
    · rename_i hk
      rwa [if_neg hk] at h

/-- Setting a field to the value that it has changes nothing. -/
theorem set_eq_self {fields : Fields} {name : String} {v : Value}
    (h : get? fields name = some v) : set fields name v = fields := by
  unfold get? at h
  unfold set
  induction fields with
  | nil => simp [find?] at h
  | cons field rest ih =>
    obtain ⟨k, w⟩ := field
    unfold find? at h
    unfold put
    split at h
    · rename_i hk
      cases h
      rw [if_pos hk]
    · rename_i hk
      rw [if_neg hk, ih h]

/-- Only the last value that a field is set to counts. -/
theorem set_set (fields : Fields) (name : String) (v w : Value) :
    set (set fields name v) name w = set fields name w := by
  unfold set
  induction fields with
  | nil => simp [put, Key.alike_text_iff]
  | cons field rest ih =>
    obtain ⟨k, u⟩ := field
    by_cases hk : k.alike (.text name) = true
    · simp [put, hk]
    · simp [put, hk, ih]

/-- Where a name is in use already, it and another key can be set in any order. -/
theorem put_set_comm {fields : Fields} {name : String} {k : Key} (h : (get? fields name).isSome)
    (hne : k ≠ .text name) (v w : Value) :
    put (set fields name v) k w = set (put fields k w) name v := by
  have hk : (Key.text name).alike k = false := by
    rw [Bool.eq_false_iff, Ne, Key.text_alike_iff]
    exact hne
  unfold set
  induction fields with
  | nil => cases h
  | cons field rest ih =>
    obtain ⟨j, u⟩ := field
    by_cases hj : j = .text name
    · subst hj
      simp [put, hk, Key.alike_text_iff]
    · have hjn : j.alike (.text name) = false := by
        rw [Bool.eq_false_iff, Ne, Key.alike_text_iff]
        exact hj
      have hrest : (get? rest name).isSome := by
        simpa [get?, find?, hjn] using h
      by_cases hjk : j.alike k = true
      · simp [put, hjn, hjk]
      · simp [put, hjn, hjk, ih hrest]

theorem merge_set {fields news : Fields} {name : String} (h : (get? fields name).isSome)
    (hnews : ∀ w, (Key.text name, w) ∉ news) (v : Value) :
    merge (set fields name v) news = set (merge fields news) name v := by
  induction news generalizing fields with
  | nil => rfl
  | cons field rest ih =>
    obtain ⟨k, w⟩ := field
    have hne : k ≠ .text name := fun heq => hnews w (by rw [heq]; exact List.mem_cons_self ..)
    have hput : (get? (put fields k w) name).isSome := by
      rw [get?_put]
      split
      · rfl
      · exact h
    show merge (put (set fields name v) k w) rest = set (merge (put fields k w) rest) name v
    rw [put_set_comm h hne, ih hput fun u hu => hnews u (List.mem_cons_of_mem _ hu)]

/-- Erasing a field that is not there changes nothing. -/
theorem erase_eq_self {fields : Fields} {name : String} (h : get? fields name = none) :
    erase fields name = fields := by
  unfold get? at h
  unfold erase
  induction fields with
  | nil => rfl
  | cons field rest ih =>
    obtain ⟨k, w⟩ := field
    unfold find? at h
    split at h
    · cases h
    · rename_i hk
      rw [List.filter_cons_of_pos (by simpa using hk), ih h]

/-- What a field was set to makes no difference once it is erased. -/
theorem erase_set (fields : Fields) (name : String) (v : Value) :
    erase (set fields name v) name = erase fields name := by
  unfold erase set
  induction fields with
  | nil => simp [put, Key.alike_text_iff]
  | cons field rest ih =>
    obtain ⟨k, w⟩ := field
    cases hk : k.alike (.text name) with
    | true => simp [put, hk]
    | false => simp [put, hk, ih]

theorem mem_of_find? {fields : Fields} {k : Key} {v : Value} (h : find? fields k = some v) :
    ∃ j, (j, v) ∈ fields ∧ j.alike k = true := by
  induction fields with
  | nil => simp [find?] at h
  | cons field rest ih =>
    obtain ⟨j, w⟩ := field
    unfold find? at h
    split at h
    · rename_i hj
      cases h
      exact ⟨j, List.mem_cons_self .., hj⟩
    · obtain ⟨i, hi, hk⟩ := ih h
      exact ⟨i, List.mem_cons_of_mem _ hi, hk⟩

theorem mem_of_get? {fields : Fields} {name : String} {v : Value}
    (h : get? fields name = some v) : (Key.text name, v) ∈ fields := by
  obtain ⟨k, hmem, hk⟩ := mem_of_find? h
  rw [Key.alike_text_iff] at hk
  rw [← hk]
  exact hmem

/-- A field that is read as a text is there, because one that is missing is read as null. -/
theorem get?_of_field_text {fields : Fields} {name s : String}
    (h : field fields name = .text s) : get? fields name = some (.text s) := by
  unfold field at h
  cases hget : get? fields name with
  | none =>
    rw [hget] at h
    cases h
  | some v =>
    rw [hget, Option.getD_some] at h
    rw [h]

end Fields

/-- The value of a named field, of an object that has it. -/
def Value.get? (v : Value) (name : String) : Option Value :=
  v.fields?.bind fun fields => Fields.get? fields name

theorem Value.isObject_iff (v : Value) : v.isObject = true ↔ ∃ fields, v = .object fields := by
  cases v <;> simp [isObject]

theorem Value.fields?_eq_some {v : Value} {fields : Fields} (h : v.fields? = some fields) :
    v = .object fields := by
  cases v with
  | object fields' =>
    cases h
    rfl
  | _ => cases h

theorem Value.eq_missing {v : Value} (h : v.isMissing = true) : v = .missing := by
  unfold isMissing at h
  split at h
  · rfl
  · cases h

theorem Value.text?_eq_some {v : Value} {s : String} (h : v.text? = some s) : v = .text s := by
  cases v with
  | atom a =>
    cases a with
    | text t =>
      cases h
      rfl
    | _ => cases h
  | _ => cases h

theorem Value.field_eq (v : Value) (name : String) : v.field name = (v.get? name).getD .null := by
  cases v <;> rfl

/-! ## Going down to the children -/

theorem Value.childList?_eq_some_iff (v : Value) (items : List Value) :
    v.childList? = some items ↔ v.get? "children" = some (.list items) := by
  cases v with
  | object fields =>
    simp only [childList?, get?, fields?, Option.bind_some]
    constructor
    · intro h
      split at h
      · rename_i items' hget
        cases h
        exact hget
      · cases h
    · intro h
      rw [h]
  | _ => simp [childList?, get?, fields?]

theorem Value.exists_of_mem_children {v c : Value} (h : c ∈ v.children) :
    ∃ items, v.get? "children" = some (.list items) ∧ c ∈ items := by
  cases hc : v.childList? with
  | none =>
    rw [children, hc] at h
    cases h
  | some items =>
    rw [children, hc] at h
    exact ⟨items, (v.childList?_eq_some_iff items).mp hc, h⟩

theorem Value.children_eq_nil_of_get? {v : Value} (h : v.get? "children" = none) :
    v.children = [] := by
  cases hc : v.childList? with
  | none => rw [children, hc, Option.getD_none]
  | some items =>
    rw [childList?_eq_some_iff, h] at hc
    cases hc

theorem Value.childList?_of_null {v : Value} (h : (v.field "children").isNull = true) :
    v.childList? = none := by
  cases hsome : v.childList? with
  | none => rfl
  | some items =>
    rw [childList?_eq_some_iff] at hsome
    rw [field_eq, hsome] at h
    cases h

theorem Value.children_of_null {v : Value} (h : (v.field "children").isNull = true) :
    v.children = [] := by
  rw [children, childList?_of_null h, Option.getD_none]

theorem Value.children_of_list {v : Value} {items : List Value}
    (h : v.get? "children" = some (.list items)) : v.children = items := by
  rw [children, (childList?_eq_some_iff v items).mpr h, Option.getD_some]

theorem Value.sizeOf_lt_of_mem_children {v c : Value} (h : c ∈ v.children) :
    sizeOf c < sizeOf v :=
  Nat.lt_trans (List.sizeOf_lt_of_mem h) v.sizeOf_children_lt

/-- What passes from the children of a value to the value holds of all values. -/
theorem Value.children_induction {P : Value → Prop}
    (step : ∀ v : Value, (∀ c ∈ v.children, P c) → P v) (v : Value) : P v :=
  step v fun c _ => Value.children_induction step c
termination_by sizeOf v
decreasing_by exact Value.sizeOf_lt_of_mem_children (by assumption)

/-- What passes from the children of a value and from the values beside it to all of them holds of
all lists of values. -/
theorem Value.forest_induction {P : List Value → Prop} (nil : P [])
    (cons : ∀ v rest, P v.children → P rest → P (v :: rest)) : ∀ vs, P vs
  | [] => nil
  | v :: rest => cons v rest (forest_induction nil cons v.children) (forest_induction nil cons rest)
termination_by vs => sizeOf vs
decreasing_by
  · exact Nat.lt_trans v.sizeOf_children_lt (by simp +arith)
  · simp +arith

end PageBuilder
