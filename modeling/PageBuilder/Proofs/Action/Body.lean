import PageBuilder.Action.Run
import PageBuilder.Proofs.Json.Plain
import PageBuilder.Proofs.Json.RoundTrip
import PageBuilder.Proofs.Value.Closed
import PageBuilder.Proofs.Value.Written

/-!
What is sent with a request: the text of an object, which is read back with the data context in one
field and in the others what the configured body says.

* `Value.Spelled.jsonable_eq`: what has a text is written as it is;
* `RequestBody.configured_spelled`: a JSON-like body says something that has a text;
* `Step.content_reads`: the content of a request, read back.
-/

namespace PageBuilder

namespace Value

/-- A value as JSON has it, sequences of fixed length among the others. -/
def JsonLike (v : Value) : Prop := v.Proper ∧ v.offence? = none

theorem JsonLike.closed : Closed JsonLike := Proper.closed.and offence?_closed

theorem JsonLike.spelled {v : Value} (h : v.JsonLike) : v.jsonable.Spelled :=
  (h.1.storable_jsonable h.2).spelled

/-- What has a text is written as it is. -/
theorem Spelled.jsonable_eq {v : Value} (h : v.Spelled) : v.jsonable = v := by
  induction h with
  | @atom a ha =>
    rcases ha with ha | ⟨x, rfl⟩
    · exact jsonable_atom ha
    · rfl
  | @list items _ ih =>
    rw [jsonable, allJsonable_eq, List.map_congr_left ih, List.map_id']
  | @object fields _ _ _ ih =>
    have hfields : ∀ f ∈ fields, (f.1, f.2.jsonable) = f := fun f hf => by rw [ih f hf]
    rw [jsonable_object, List.map_congr_left hfields, List.map_id']

end Value

/-! ## Configured bodies -/

namespace RequestBody

open Value (JsonLike)

/-- What is wrapped has a text if the value has. -/
theorem wrapped_spelled {v : Value} (h : v.jsonable.Spelled) :
    (Value.object (wrapped v)).jsonable.Spelled := by
  have hsingle : (Value.object [(.text "value", v)]).jsonable.Spelled := by
    rw [Value.jsonable_object]
    refine (Value.madeOf_object_iff _).mpr ⟨List.pairwise_singleton .., ?_⟩
    rw [List.map_singleton, List.forall_mem_singleton]
    exact ⟨⟨_, rfl⟩, h⟩
  cases v with
  | object fields => exact h
  | _ => exact hsingle

/-- A text says what it is read as, where words for numbers are not read, or what it stands for as
a template. -/
theorem ofText_spelled {context : Value} (hcontext : context.JsonLike) {s : String}
    {fields : Fields} (h : ofText context s = .ok fields) :
    (Value.object fields).jsonable.Spelled := by
  unfold ofText at h
  split at h
  · rename_i v hv
    cases h
    have hspelled := Json.valueOfText_spelled hv
    exact wrapped_spelled (hspelled.jsonable_eq.symm ▸ hspelled)
  · obtain ⟨v, hv, rfl⟩ := map_eq_ok_iff.mp h
    have hspelled : v.jsonable.Spelled := by
      rcases Template.evaluate_closed JsonLike.closed hcontext (JsonLike.closed.text s) hv with
        rfl | hlike
      · exact .atom (.inl rfl)
      · exact hlike.spelled
    rw [Value.jsonable_object]
    refine (Value.madeOf_object_iff _).mpr ⟨List.pairwise_singleton .., ?_⟩
    rw [List.map_singleton, List.forall_mem_singleton]
    exact ⟨⟨_, rfl⟩, hspelled⟩

/-- What a JSON-like body says has a text. -/
theorem configured_spelled {context body : Value} (hcontext : context.JsonLike)
    (hbody : body.JsonLike) {fields : Fields} (h : configured context body = .ok fields) :
    (Value.object fields).jsonable.Spelled := by
  have hempty : (Value.object []).jsonable.Spelled := Value.madeOf_ofPairs (List.forall_mem_nil _)
  unfold configured at h
  split at h
  · cases h
    exact hempty
  · cases h
    exact hempty
  · exact ofText_spelled hcontext h
  · cases h
    exact wrapped_spelled hbody.spelled

end RequestBody

/-! ## Contents -/

namespace Step

theorem content_of_get {merged : Value} {context : Fields} {hook : Webhook}
    (h : hook.method = .get) : content merged context hook = .ok none := if_pos h

/-- The content of a request is read back as an object: one field of it is the data context, and the
others are what the configured body says without that field. -/
theorem content_reads {merged : Value} {context : Fields} {hook : Webhook} {text? : Option String}
    (hget : hook.method ≠ .get) (hmerged : merged.JsonLike)
    (hcontext : (Value.object context).JsonLike) (hbody : hook.body.JsonLike)
    (h : content merged context hook = .ok text?) :
    ∃ text fields members, text? = some text ∧
      RequestBody.configured merged hook.body = .ok fields ∧
      Json.valueOfText .lenient text = .ok (.object members) ∧
      Fields.get? members "context" = some (Value.object context).jsonable ∧
      Fields.erase members "context" = Fields.erase (Fields.jsonable fields) "context" := by
  unfold content at h
  rw [if_neg hget] at h
  obtain ⟨body, hbuild, h⟩ := bind_eq_ok_iff.mp h
  obtain ⟨text, htext, h⟩ := bind_eq_ok_iff.mp h
  cases h
  obtain ⟨fields, hfields, hbuild⟩ := bind_eq_ok_iff.mp (mapError_eq_ok_iff.mp hbuild)
  cases hbuild
  let members := Fields.set (Fields.jsonable fields) "context" (Value.object context).jsonable
  have hmembers : (Value.object (Fields.set fields "context" (.object context))).jsonable =
      .object members := Value.jsonable_object_set ..
  have hspelled : (Value.object members).Spelled := by
    have hconfigured := RequestBody.configured_spelled hmerged hbody hfields
    rw [Value.jsonable_object] at hconfigured
    have hclosed := Value.MadeOf.closed
      (p := fun a => a.offence? = none ∨ ∃ x, a = .float x) (.inl rfl) fun _ => .inl rfl
    exact hclosed.set hconfigured hcontext.spelled "context"
  obtain ⟨text', htext', hread⟩ :=
    Json.valueOfText_text_spelled Json.regular_spaced rfl hspelled
  rw [hmembers] at htext
  obtain rfl : text = text' := Except.ok.inj ((mapError_eq_ok_iff.mp htext).symm.trans htext')
  exact ⟨text, fields, members, rfl, hfields, hread, Fields.get?_set .., Fields.erase_set ..⟩

end Step

end PageBuilder
