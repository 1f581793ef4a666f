import PageBuilder.Proofs.Tree.Settle
import PageBuilder.Proofs.Value.Closed
import PageBuilder.Store

/-!
What the tree of a session is made of.

* `Store.fieldsOf_storable`: the object that a storable value is made to has storable values, though
  its names need be no texts;
* `Value.Workable`: plain values whose event lists, wherever they are in the tree, are storable;
* `lasting_workable`, `Workable.putFields`: such values stay so when they are stored and edited.
-/

namespace PageBuilder

open PageBuilder.Tree (Lasting putFields)

/-! ## Objects made of other values -/

/-- Storable values under different names, which may be atoms of any kind. -/
def Fields.HoldEvents (fields : Fields) : Prop :=
  Distinct fields ∧ ∀ f ∈ fields, (∃ a, f.1 = .atom a) ∧ f.2.Storable

namespace Fields.HoldEvents

variable {fields : Fields}

theorem empty : HoldEvents [] := ⟨.nil, List.forall_mem_nil _⟩

theorem put (h : fields.HoldEvents) (a : Atom) {v : Value} (hv : v.Storable) :
    HoldEvents (Fields.put fields (.atom a) v) :=
  ⟨h.1.put _ _, Fields.forall_mem_put (N := fun k => ∃ a, k = .atom a) h.2 ⟨a, rfl⟩ hv⟩

theorem plain (h : fields.HoldEvents) : (Value.object fields).Plain :=
  (Value.plain_object_iff fields).mpr ⟨h.1, fun f hf => ⟨(h.2 f hf).1, (h.2 f hf).2.plain⟩⟩

end Fields.HoldEvents

theorem Value.Storable.holdEvents {fields : Fields} (h : (Value.object fields).Storable) :
    fields.HoldEvents := by
  obtain ⟨hdistinct, hfields⟩ := (Value.storable_object_iff fields).mp h
  refine ⟨hdistinct, fun f hf => ?_⟩
  obtain ⟨⟨name, hname⟩, hv⟩ := hfields f hf
  exact ⟨⟨_, hname⟩, hv⟩

namespace Store

open Value (Storable)

theorem itemsOf_storable {v : Value} {items : List Value} (h : itemsOf v = .ok items)
    (hv : v.Storable) : ∀ item ∈ items, item.Storable := by
  cases hv with
  | list hitems =>
    cases h
    exact hitems
  | object _ hnamed _ =>
    cases h
    intro item hi
    obtain ⟨f, hf, rfl⟩ := List.mem_map.mp hi
    obtain ⟨name, hname⟩ := hnamed f hf
    show f.1.toValue.Storable
    rw [hname]
    exact .atom rfl
  | @atom a ha =>
    cases a with
    | text s =>
      cases h
      intro item hi
      obtain ⟨c, -, rfl⟩ := List.mem_map.mp hi
      exact .atom rfl
    | octets bytes => cases ha
    | _ => cases h

theorem pairOf_storable {v a b : Value} (h : pairOf v = .ok (a, b)) (hv : v.Storable) :
    a.Storable ∧ b.Storable := by
  unfold pairOf at h
  split at h
  · cases h
    rw [Value.storable_list_iff] at hv
    exact ⟨hv a (by simp), hv b (by simp)⟩
  · cases hv
  · rename_i j _ k _
    cases h
    have hfields := ((Value.storable_object_iff _).mp hv).2
    obtain ⟨⟨c, hc⟩, -⟩ := hfields _ (List.mem_cons_self ..)
    obtain ⟨⟨d, hd⟩, -⟩ := hfields _ (List.mem_cons_of_mem _ (List.mem_cons_self ..))
    rw [show j = .text c from hc, show k = .text d from hd]
    exact ⟨.atom rfl, .atom rfl⟩
  · split at h
    · cases h
      exact ⟨.atom rfl, .atom rfl⟩
    · cases h
  · cases h
    exact ⟨.atom rfl, .atom rfl⟩
  all_goals cases h

theorem toKey?_storable {v : Value} {k : Key} (h : v.toKey? = some k) (hv : v.Storable) :
    ∃ a, k = .atom a := by
  cases hv with
  | @atom a _ =>
    cases h
    exact ⟨a, rfl⟩
  | _ => cases h

theorem putPairs_storable {fields made : Fields} {items : List Value}
    (h : putPairs fields items = .ok made) (hfields : fields.HoldEvents)
    (hitems : ∀ item ∈ items, item.Storable) : made.HoldEvents := by
  induction items generalizing fields with
  | nil =>
    cases h
    exact hfields
  | cons item rest ih =>
    rw [List.forall_mem_cons] at hitems
    obtain ⟨⟨a, b⟩, hpair, h⟩ := bind_eq_ok_iff.mp h
    obtain ⟨ha, hb⟩ := pairOf_storable hpair hitems.1
    simp only at h
    split at h
    · cases h
    · rename_i k hk
      obtain ⟨c, rfl⟩ := toKey?_storable hk ha
      exact ih h (hfields.put c hb) hitems.2

/-- The object that a storable value is made to has storable values. -/
theorem fieldsOf_storable {v : Value} {fields : Fields} (h : fieldsOf v = .ok fields)
    (hv : v.Storable) : fields.HoldEvents := by
  unfold fieldsOf at h
  split at h
  · cases h
    exact hv.holdEvents
  · obtain ⟨items, hitems, h⟩ := bind_eq_ok_iff.mp h
    exact putPairs_storable h .empty (itemsOf_storable hitems hv)

end Store

/-! ## Workable values -/

namespace Value

/-- Event lists can be made of the value only with storable actions. -/
def GivesEvents (v : Value) : Prop :=
  ∀ fields, Store.fieldsOf v = .ok fields → fields.HoldEvents

/-- A plain value in which all event lists, down the tree, are storable. -/
inductive Workable : Value → Prop where
  | mk {v : Value} (plain : v.Plain) (events : ∀ w, v.get? "events" = some w → w.GivesEvents)
      (children : ∀ c ∈ v.children, Workable c) : Workable v

variable {v : Value} {fields : Fields}

theorem Workable.plain (h : Workable v) : v.Plain := by
  cases h with
  | mk hplain _ _ => exact hplain

theorem Workable.events (h : Workable v) : ∀ w, v.get? "events" = some w → w.GivesEvents := by
  cases h with
  | mk _ hevents _ => exact hevents

theorem Workable.children (h : Workable v) : ∀ c ∈ v.children, Workable c := by
  cases h with
  | mk _ _ hchildren => exact hchildren

theorem Storable.get? {w : Value} {name : String} (h : Storable v) (hw : v.get? name = some w) :
    Storable w := by
  obtain ⟨fields, hfields, hget⟩ := Option.bind_eq_some_iff.mp hw
  obtain rfl := Value.fields?_eq_some hfields
  exact Storable.closed.fields h _ (Fields.mem_of_get? hget)

theorem Storable.workable (h : Storable v) : Workable v := by
  induction v using Value.children_induction with
  | step v ih =>
    refine ⟨h.plain, fun w hw fields hfields => Store.fieldsOf_storable hfields (h.get? hw), ?_⟩
    intro c hc
    obtain ⟨items, hget, hmem⟩ := exists_of_mem_children hc
    exact ih c hc ((storable_list_iff items).mp (h.get? hget) c hmem)

theorem children_of_get?_eq {fields others : Fields}
    (h : Fields.get? others "children" = Fields.get? fields "children") :
    (object others).children = (object fields).children := by
  simp only [Value.children, childList?, h]

/-- Nothing but the event lists and the children of a workable value matters. -/
theorem Workable.of_get?_eq {others : Fields} (h : Workable (.object fields))
    (hplain : (object others).Plain)
    (hevents : Fields.get? others "events" = Fields.get? fields "events")
    (hchildren : Fields.get? others "children" = Fields.get? fields "children") :
    Workable (.object others) := by
  refine ⟨hplain, fun w hw => h.events w (hevents.symm.trans hw), ?_⟩
  rw [children_of_get?_eq hchildren]
  exact h.children

theorem lasting_plain : Lasting Plain where
  children := Plain.children
  id h _ := h.set "id" (.atom _)
  props h := h.set "props" plain_empty
  childList h hitems := h.set "children" (.list hitems)
  leaf h := h.erase "children"

theorem lasting_workable : Lasting Workable where
  children := Workable.children
  id h name := h.of_get?_eq (lasting_plain.id h.plain name)
    (Fields.get?_set_of_ne _ _ (by decide)) (Fields.get?_set_of_ne _ _ (by decide))
  props h := h.of_get?_eq (lasting_plain.props h.plain)
    (Fields.get?_set_of_ne _ _ (by decide)) (Fields.get?_set_of_ne _ _ (by decide))
  childList {fields items} h hitems := by
    have hevents := Fields.get?_set_of_ne fields (.list items)
      (show "events" ≠ "children" by decide)
    refine ⟨lasting_plain.childList h.plain fun c hc => (hitems c hc).plain,
      fun w hw => h.events w (hevents.symm.trans hw), ?_⟩
    rw [children_of_list (v := .object _) (Fields.get?_set fields "children" _)]
    exact hitems
  leaf {fields} h := by
    have hevents := Fields.get?_erase_of_ne fields (show "events" ≠ "children" by decide)
    refine ⟨lasting_plain.leaf h.plain, fun w hw => h.events w (hevents.symm.trans hw), ?_⟩
    rw [children_eq_nil_of_get? (v := .object _) (Fields.get?_erase fields "children")]
    exact List.forall_mem_nil _

/-- What is put into a workable value is found in it, or what was there before. -/
theorem Workable.putFields (h : Workable v) {news : Fields} (hnews : Workable (.object news)) :
    Workable (putFields news v) := by
  cases v with
  | object old =>
    have hget (name : String) : ∀ w, Fields.get? (Fields.merge old news) name = some w →
        (object old).get? name = some w ∨ (object news).get? name = some w := by
      refine Fields.get?_merge (P := fun x => ∀ w, x = some w →
        (object old).get? name = some w ∨ (object news).get? name = some w)
        (fun w hw => .inl hw) fun v hv w hw => .inr ?_
      rw [← hw]
      exact Fields.get?_of_mem ((plain_object_iff news).mp hnews.plain).1 hv
    refine ⟨h.plain.merge ((plain_object_iff news).mp hnews.plain).2, fun w hw => ?_, ?_⟩
    · exact (hget "events" w hw).elim (h.events w) (hnews.events w)
    · intro c hc
      obtain ⟨items, hitems, hmem⟩ := exists_of_mem_children hc
      rcases hget "children" _ hitems with hold | hnew
      · exact h.children c (children_of_list hold ▸ hmem)
      · exact hnews.children c (children_of_list hnew ▸ hmem)
  | _ => exact h

end Value

end PageBuilder
