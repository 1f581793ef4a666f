import PageBuilder.Proofs.Results
import PageBuilder.Proofs.Value.SameJson
import PageBuilder.Template

/-!
Kinds of values that are not left by going down into values, by changing objects and by evaluating
templates.

* `Value.Closed`: such a kind; proper values and storable ones are two of them;
* `Path.lookup_closed`: what a path leads to is of the kind, or missing;
* `Template.evaluate_closed`: so is what a template stands for.
-/

namespace PageBuilder

namespace Value

/-- A kind of values with null, all texts, everything in its sequences and objects, and its objects
after changes. -/
structure Closed (P : Value → Prop) : Prop where
  null : P .null
  text : ∀ s, P (.text s)
  items : ∀ {v : Value} {items : List Value}, P v → v.items? = some items → ∀ w ∈ items, P w
  fields : ∀ {fields : Fields}, P (.object fields) → ∀ f ∈ fields, P f.2
  set : ∀ {fields : Fields} {v : Value}, P (.object fields) → P v →
    ∀ name, P (.object (Fields.set fields name v))
  erase : ∀ {fields : Fields}, P (.object fields) → ∀ name, P (.object (Fields.erase fields name))
  merge : ∀ {fields news : Fields}, P (.object fields) → P (.object news) →
    P (.object (Fields.merge fields news))

theorem Proper.closed : Closed Proper where
  null := .atom _
  text _ := .atom _
  items h hitems := h.items hitems
  fields h := ((proper_object_iff _).mp h).2
  set h hv name := by
    obtain ⟨hdistinct, hfields⟩ := (proper_object_iff _).mp h
    refine (proper_object_iff _).mpr ⟨hdistinct.put _ _, fun f hf => ?_⟩
    have hall := Fields.forall_mem_put (N := fun _ => True) (k := .text name)
      (fun f hf => ⟨trivial, hfields f hf⟩) trivial hv
    exact (hall f hf).2
  erase h name := by
    obtain ⟨hdistinct, hfields⟩ := (proper_object_iff _).mp h
    exact (proper_object_iff _).mpr
      ⟨hdistinct.filter _, fun f hf => hfields f (List.mem_filter.mp hf).1⟩
  merge h hnews := by
    obtain ⟨hdistinct, hfields⟩ := (proper_object_iff _).mp h
    obtain ⟨-, hnews⟩ := (proper_object_iff _).mp hnews
    refine (proper_object_iff _).mpr ⟨hdistinct.merge _, fun f hf => ?_⟩
    have hall := Fields.forall_mem_merge (N := fun _ => True)
      (fun f hf => ⟨trivial, hfields f hf⟩) (fun f hf => ⟨trivial, hnews f hf⟩)
    exact (hall f hf).2

theorem MadeOf.closed {p : Atom → Prop} (hnull : p .null) (htext : ∀ s, p (.text s)) :
    Closed (MadeOf p) where
  null := .atom hnull
  text s := .atom (htext s)
  items h hitems := by
    cases h with
    | list hmade =>
      cases hitems
      exact hmade
    | _ => cases hitems
  fields h f hf := (((madeOf_object_iff _).mp h).2 f hf).2
  set h hv name := by
    obtain ⟨hdistinct, hfields⟩ := (madeOf_object_iff _).mp h
    refine (madeOf_object_iff _).mpr ⟨hdistinct.put _ _, ?_⟩
    exact Fields.forall_mem_put (N := fun k => ∃ name, k = .text name) hfields ⟨name, rfl⟩ hv
  erase h name := by
    obtain ⟨hdistinct, hfields⟩ := (madeOf_object_iff _).mp h
    exact (madeOf_object_iff _).mpr
      ⟨hdistinct.filter _, fun f hf => hfields f (List.mem_filter.mp hf).1⟩
  merge h hnews := by
    obtain ⟨hdistinct, hfields⟩ := (madeOf_object_iff _).mp h
    obtain ⟨-, hnews⟩ := (madeOf_object_iff _).mp hnews
    refine (madeOf_object_iff _).mpr ⟨hdistinct.merge _, ?_⟩
    exact Fields.forall_mem_merge (N := fun k => ∃ name, k = .text name) hfields hnews

theorem Storable.closed : Closed Storable := by
  rw [show Storable = MadeOf fun a => a.offence? = none from
    funext fun v => propext (storable_iff_madeOf v)]
  exact MadeOf.closed rfl fun _ => rfl

/-- What has no offence has none in any part. -/
theorem offence?_closed : Closed fun v => v.offence? = none where
  null := rfl
  text _ := rfl
  items h hitems := (offence?_of_items? hitems).mp h
  fields h f hf := ((offence?_object _).mp h f hf).2
  set h hv name := by
    rw [offence?_object] at h ⊢
    exact Fields.forall_mem_put (N := fun k => ∃ name, k = .text name)
      (P := fun v => v.offence? = none) h ⟨name, rfl⟩ hv
  erase h name := by
    rw [offence?_object] at h ⊢
    exact fun f hf => h f (List.mem_filter.mp hf).1
  merge h hnews := by
    rw [offence?_object] at h hnews ⊢
    exact Fields.forall_mem_merge (N := fun k => ∃ name, k = .text name)
      (P := fun v => v.offence? = none) h hnews

theorem Closed.and {P Q : Value → Prop} (hP : Closed P) (hQ : Closed Q) :
    Closed fun v => P v ∧ Q v where
  null := ⟨hP.null, hQ.null⟩
  text s := ⟨hP.text s, hQ.text s⟩
  items h hitems w hw := ⟨hP.items h.1 hitems w hw, hQ.items h.2 hitems w hw⟩
  fields h f hf := ⟨hP.fields h.1 f hf, hQ.fields h.2 f hf⟩
  set h hv name := ⟨hP.set h.1 hv.1 name, hQ.set h.2 hv.2 name⟩
  erase h name := ⟨hP.erase h.1 name, hQ.erase h.2 name⟩
  merge h hnews := ⟨hP.merge h.1 hnews.1, hQ.merge h.2 hnews.2⟩

theorem Closed.get? {P : Value → Prop} (hP : Closed P) {v w : Value} (h : P v) {name : String}
    (hget : v.get? name = some w) : P w := by
  obtain ⟨fields, hfields, hget⟩ := Option.bind_eq_some_iff.mp hget
  obtain rfl := Value.fields?_eq_some hfields
  exact hP.fields h _ (Fields.mem_of_get? hget)

theorem Closed.field {P : Value → Prop} (hP : Closed P) {v : Value} (h : P v) (name : String) :
    P (v.field name) := by
  rw [Value.field_eq]
  cases hw : v.get? name with
  | none => exact hP.null
  | some w => exact hP.get? h hw

end Value

/-! ## Paths -/

namespace Path

open Value (Closed)

variable {P : Value → Prop} {v w : Value}

theorem item_closed {items : List Value} (h : ∀ w ∈ items, P w) {step : String}
    (hw : item items step = .ok w) : w = .missing ∨ P w := by
  unfold item at hw
  split at hw
  · obtain ⟨n, -, rfl⟩ := map_eq_ok_iff.mp hw
    rw [List.getD_eq_getElem?_getD]
    cases hget : items[n.toNat]? with
    | none => exact .inl rfl
    | some w => exact .inr (h w (List.mem_of_getElem? hget))
  · cases hw
    exact .inl rfl

theorem down_closed (hP : Closed P) (hv : P v) {step : String} (hw : down v step = .ok w) :
    w = .missing ∨ P w := by
  cases v with
  | atom a =>
    cases hw
    exact .inl rfl
  | list items => exact item_closed (hP.items hv rfl) hw
  | tuple items => exact item_closed (hP.items hv rfl) hw
  | object fields =>
    cases hw
    cases hget : Fields.get? fields step with
    | none => exact .inl rfl
    | some w => exact .inr (hP.fields hv _ (Fields.mem_of_get? hget))

theorem follow_closed (hP : Closed P) {steps : List String} (hv : P v)
    (hw : follow v steps = .ok w) : w = .missing ∨ P w := by
  induction steps generalizing v with
  | nil =>
    cases hw
    exact .inr hv
  | cons step rest ih =>
    unfold follow at hw
    obtain ⟨next, hnext, hw⟩ := bind_eq_ok_iff.mp hw
    split at hw
    · cases hw
      exact .inl rfl
    · rename_i hmissing
      rcases down_closed hP hv hnext with rfl | hnext
      · exact absurd rfl hmissing
      · exact ih hnext hw

/-- What a path leads to is of the kind of the value, or missing. -/
theorem lookup_closed (hP : Closed P) {path : String} (hv : P v) (hw : lookup v path = .ok w) :
    w = .missing ∨ P w := by
  unfold lookup at hw
  split at hw
  · rename_i found hfound
    cases hw
    cases v with
    | object fields => exact .inr (hP.fields hv _ (Fields.mem_of_get? hfound))
    | _ => cases hfound
  · unfold descend at hw
    split at hw
    · cases hw
      exact .inl rfl
    · exact follow_closed hP hv hw

end Path

/-! ## Templates -/

/-- What a value stands for is of the kind of the value and the context, or missing. -/
theorem Template.evaluate_closed {P : Value → Prop} (hP : Value.Closed P) {context v w : Value}
    (hcontext : P context) (hv : P v) (hw : evaluate context v = .ok w) :
    w = .missing ∨ P w := by
  unfold evaluate at hw
  split at hw
  · split at hw
    · cases hw
    · split at hw
      · exact Path.lookup_closed hP hcontext hw
      · obtain ⟨s, -, rfl⟩ := map_eq_ok_iff.mp hw
        exact .inr (hP.text s)
  · cases hw
    exact .inr hv

end PageBuilder
