import PageBuilder.Proofs.Action.Body

/-!
Whole request bodies, whatever they are configured as.

* `RequestBody.build_compactText`: a value and its text make the same body;
* `RequestBody.Joins`: a body is made of what the configured body says and of the data context;
* `RequestBody.build_joins`: both, for all bodies.
-/

namespace PageBuilder

namespace RequestBody

open Fields (get? erase set)
open Value (Part)

section Said

variable {context : Value}

/-! ## What a body says -/

/-- A text that is no JSON, and so taken for a template. -/
def IsTemplate (body : Value) : Prop :=
  ∃ s fault, body = .text s ∧ s ≠ "" ∧ Json.valueOfText .strict s = .error fault

theorem configured_text {s : String} (hs : s ≠ "") :
    configured context (.text s) = ofText context s := by
  rw [configured]
  exact hs

/-- A text of JSON says what is read from it. -/
theorem configured_of_read {s : String} {v : Value} (h : Json.valueOfText .strict s = .ok v) :
    configured context (.text s) = .ok (wrapped v) := by
  have hs : s ≠ "" := by
    rintro rfl
    cases h
  rw [configured_text hs, ofText, h]

theorem configured_of_not_text {v : Value} (htext : v.isText = false) (hnull : v.isNull = false) :
    configured context v = .ok (wrapped v) := by
  cases v with
  | atom a =>
    cases a with
    | null => cases hnull
    | text s => cases htext
    | _ => rfl
  | _ => rfl

theorem said_of_template {body : Value} (h : IsTemplate body) {said : Fields}
    (hsaid : configured context body = .ok said) :
    ∃ v, Template.evaluate context body = .ok v ∧ said = [(.text "value", v)] := by
  obtain ⟨s, fault, rfl, hs, hread⟩ := h
  rw [configured_text hs, ofText, hread] at hsaid
  obtain ⟨v, hv, rfl⟩ := map_eq_ok_iff.mp hsaid
  exact ⟨v, hv, rfl⟩

/-- What is no template says the same whatever the context is. -/
theorem configured_of_not_template {body : Value} (h : ¬ IsTemplate body) (context' : Value) :
    configured context' body = configured context body := by
  by_cases htext : ∃ s, body = .text s
  · obtain ⟨s, rfl⟩ := htext
    by_cases hs : s = ""
    · rw [hs]
      rfl
    · cases hread : Json.valueOfText .strict s with
      | ok v => rw [configured_of_read hread, configured_of_read hread]
      | error fault => exact absurd ⟨s, fault, rfl, hs, hread⟩ h
  · cases body with
    | atom a =>
      cases a with
      | text s => exact absurd ⟨s, rfl⟩ htext
      | _ => rfl
    | _ => rfl

/-- What is wrapped is written as it is, if the value has a text. -/
theorem jsonable_wrapped {v : Value} (h : v.Spelled) : Fields.jsonable (wrapped v) = wrapped v := by
  have hv := h.jsonable_eq
  have hsingle : Fields.jsonable [(.text "value", v)] = [(.text "value", v)] := by
    rw [Fields.jsonable_cons, hv]
    rfl
  cases v with
  | object fields =>
    rw [Value.jsonable_object] at hv
    exact Value.object.inj hv
  | _ => exact hsingle

end Said

/-! ## What is sent -/

/-- The members of a body: the data context is one of them, and the others are what was said. Nothing
in them is the marker or a sequence of fixed length, and no object got other names. -/
structure Joins (said : Fields) (runtime : Value) (members : Fields) : Prop where
  context : get? members "context" = some runtime.jsonable
  others : erase members "context" = erase (Fields.jsonable said) "context"
  parts : ∀ w, Part w (.object members) → w ≠ .missing ∧ ∀ items, w ≠ .tuple items
  names : ∀ written, Part (.object written) (.object members) →
    ∃ fields, Part (.object fields) (.object (set said "context" runtime)) ∧
      written.map Prod.fst = fields.map Prod.fst

section Build

variable {context runtime : Value}

theorem build_of_configured {body : Value} {said : Fields}
    (h : configured context body = .ok said) :
    build context runtime body =
      .ok (.object (set (Fields.jsonable said) "context" runtime.jsonable)) := by
  rw [build, h]
  exact congrArg Except.ok (Value.jsonable_object_set ..)

theorem joins_set (said : Fields) (runtime : Value) :
    Joins said runtime (set (Fields.jsonable said) "context" runtime.jsonable) where
  context := Fields.get?_set ..
  others := Fields.erase_set ..
  parts w hw := by
    rw [← Value.jsonable_object_set] at hw
    obtain ⟨u, -, rfl⟩ := hw.jsonable
    exact ⟨u.jsonable_ne_missing, u.jsonable_ne_tuple⟩
  names written hw := by
    rw [← Value.jsonable_object_set] at hw
    exact hw.names

/-- A value and its text make the same body. -/
theorem build_compactText {v : Value} (h : v.Storable) (htext : v.isText = false)
    (hnull : v.isNull = false) :
    ∃ s, Json.compactText v = .ok s ∧
      build context runtime (.text s) = build context runtime v ∧
      build context runtime v = .ok (.object (set (wrapped v) "context" runtime.jsonable)) := by
  obtain ⟨s, hs, hread⟩ := Json.valueOfText_text Json.regular_compact h .strict
  have hbuild {body : Value} (hbody : configured context body = .ok (wrapped v)) :
      build context runtime body = .ok (.object (set (wrapped v) "context" runtime.jsonable)) := by
    rw [build_of_configured hbody, jsonable_wrapped h.spelled]
  have hvalue := hbuild (configured_of_not_text htext hnull)
  exact ⟨s, hs, (hbuild (configured_of_read hread)).trans hvalue.symm, hvalue⟩

end Build

/-- A value of JSON that is no text and not null makes the same body as its text: one with the fields
of an object, or with any other value in one field. Whatever is configured, a body that is made joins
what it says with the data context; only what a template says depends on the context that it is
evaluated in. -/
theorem build_joins (context runtime : Value) :
    (∀ v : Value, v.Storable → v.isText = false → v.isNull = false →
      ∃ s, Json.compactText v = .ok s ∧
        build context runtime (.text s) = build context runtime v ∧
        (∀ fields, v = .object fields →
          build context runtime v = .ok (.object (set fields "context" runtime.jsonable))) ∧
        (v.isObject = false → build context runtime v =
          .ok (.object [(.text "value", v), (.text "context", runtime.jsonable)]))) ∧
    ∀ body result, build context runtime body = .ok result →
      ∃ said members, configured context body = .ok said ∧
        ((IsTemplate body ∧
            ∃ v, Template.evaluate context body = .ok v ∧ said = [(.text "value", v)]) ∨
          ∀ context', configured context' body = .ok said) ∧
        result = .object members ∧ Joins said runtime members := by
  constructor
  · intro v hv htext hnull
    obtain ⟨s, hs, hsame, hmade⟩ := build_compactText hv htext hnull
    refine ⟨s, hs, hsame, ?_, fun hobject => ?_⟩
    · rintro fields rfl
      exact hmade
    · rw [hmade]
      cases v with
      | object fields => cases hobject
      | _ => rfl
  · intro body result h
    obtain ⟨said, hsaid, -⟩ := bind_eq_ok_iff.mp h
    have hresult := (build_of_configured hsaid).symm.trans h
    refine ⟨said, _, hsaid, ?_, (Except.ok.inj hresult).symm, joins_set said runtime⟩
    by_cases htemplate : IsTemplate body
    · exact .inl ⟨htemplate, said_of_template htemplate hsaid⟩
    · exact .inr fun context' => (configured_of_not_template htemplate context').trans hsaid

/-- A body with a field of the same name as that of the data context, and with a text that would be a
template. -/
def noted : Value := .ofFields [("note", .text "\x7b\x7b a \x7d\x7d"), ("context", .int 7)]

/-- A body with a field that has no value. -/
def gappy : Value := .ofFields [("context", .int 0), ("gap", .missing)]

/-- A data context that JSON does not have. -/
def unwritten : Value := .ofFields [("gone", .missing), ("pair", .tuple [.int 1])]

theorem build_joins_noted :
    noted.Storable ∧ noted.isText = false ∧ noted.isNull = false ∧
      (∃ s, Json.compactText noted = .ok s ∧
        build (.object []) unwritten (.text s) = build (.object []) unwritten noted) ∧
      build (.object []) unwritten noted =
        .ok (.ofFields [("note", .text "\x7b\x7b a \x7d\x7d"),
          ("context", .ofFields [("gone", .null), ("pair", .list [.int 1])])]) ∧
      ∃ said members, build (.object []) unwritten gappy = .ok (.object members) ∧
        Joins said unwritten members := by
  have hnoted : noted.Storable := by simp [noted, Atom.offence?]
  obtain ⟨hvalues, hbodies⟩ := build_joins (.object []) unwritten
  obtain ⟨s, hs, hsame, hfields, -⟩ := hvalues noted hnoted rfl rfl
  have hmade : build (.object []) unwritten gappy = .ok _ :=
    build_of_configured (configured_of_not_text rfl rfl)
  obtain ⟨said, members, -, -, hresult, hjoins⟩ := hbodies gappy _ hmade
  exact ⟨hnoted, rfl, rfl, ⟨s, hs, hsame⟩, hfields _ rfl, said, members,
    hmade.trans (congrArg Except.ok hresult), hjoins⟩

/-- A marker that names a field is kept. -/
theorem exists_marker_name :
    ∃ members, build (.object []) (.object []) (.object [(.atom .missing, .int 1)]) =
      .ok (.object members) ∧ ∃ f ∈ members, f.1 = .atom .missing :=
  ⟨_, build_of_configured (configured_of_not_text rfl rfl), _, List.mem_cons_self .., rfl⟩

end RequestBody

end PageBuilder
