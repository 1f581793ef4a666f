import PageBuilder.Proofs.Value.Closed
import PageBuilder.Store

/-!
Objects and lists that are made of proper values are proper, whatever the values are.

* `itemsOf_proper`: the items that a value goes through;
* `fieldsOf_proper`: the object that a value is made to.
-/

namespace PageBuilder

open Value (Proper)

mutual

theorem Key.toValue_proper (k : Key) : k.toValue.Proper := by
  cases k with
  | atom a => exact .atom a
  | tuple items => exact (Value.proper_tuple_iff _).mpr (Key.toValues_proper items)

theorem Key.toValues_proper (items : List Key) : ∀ v ∈ Key.toValues items, v.Proper := by
  cases items with
  | nil => exact List.forall_mem_nil _
  | cons k rest =>
    exact List.forall_mem_cons.mpr ⟨Key.toValue_proper k, Key.toValues_proper rest⟩

end

namespace Store

theorem itemsOf_proper {v : Value} {items : List Value} (h : itemsOf v = .ok items)
    (hv : v.Proper) : ∀ item ∈ items, item.Proper := by
  cases v with
  | list members =>
    cases h
    exact hv.items rfl
  | tuple members =>
    cases h
    exact hv.items rfl
  | object fields =>
    cases h
    exact List.forall_mem_map.mpr fun f _ => f.1.toValue_proper
  | atom a =>
    cases a with
    | text s =>
      cases h
      exact List.forall_mem_map.mpr fun c _ => .atom _
    | octets bytes =>
      cases h
      exact List.forall_mem_map.mpr fun b _ => .atom _
    | _ => cases h

theorem pairOf_proper {v a b : Value} (h : pairOf v = .ok (a, b)) (hv : v.Proper) : b.Proper := by
  unfold pairOf at h
  split at h
  · cases h
    exact hv.items rfl b (by simp)
  · cases h
    exact hv.items rfl b (by simp)
  · cases h
    exact Key.toValue_proper _
  · split at h
    · cases h
      exact .atom _
    · cases h
  · cases h
    exact .atom _
  all_goals cases h

theorem putPairs_proper {fields made : Fields} {items : List Value}
    (h : putPairs fields items = .ok made) (hfields : (Value.object fields).Proper)
    (hitems : ∀ item ∈ items, item.Proper) : (Value.object made).Proper := by
  induction items generalizing fields with
  | nil =>
    cases h
    exact hfields
  | cons item rest ih =>
    rw [List.forall_mem_cons] at hitems
    obtain ⟨⟨a, b⟩, hpair, h⟩ := bind_eq_ok_iff.mp h
    simp only at h
    split at h
    · cases h
    · rename_i k hk
      refine ih h ?_ hitems.2
      obtain ⟨hdistinct, hvalues⟩ := (Value.proper_object_iff fields).mp hfields
      refine (Value.proper_object_iff _).mpr ⟨hdistinct.put k b, fun f hf => ?_⟩
      exact (Fields.forall_mem_put (N := fun _ => True) (fun f hf => ⟨trivial, hvalues f hf⟩)
        trivial (pairOf_proper hpair hitems.1) f hf).2

/-- The object that a proper value is made to is proper. -/
theorem fieldsOf_proper {v : Value} {fields : Fields} (h : fieldsOf v = .ok fields)
    (hv : v.Proper) : (Value.object fields).Proper := by
  unfold fieldsOf at h
  split at h
  · cases h
    exact hv
  · obtain ⟨items, hitems, h⟩ := bind_eq_ok_iff.mp h
    exact putPairs_proper h (.object .nil (List.forall_mem_nil _)) (itemsOf_proper hitems hv)

end Store

end PageBuilder
