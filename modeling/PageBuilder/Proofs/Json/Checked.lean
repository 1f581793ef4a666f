import PageBuilder.Proofs.Json.Canonical
import PageBuilder.Proofs.Value.Sights

/-!
Values are checked before they are written: the check finds something just if the value is none of
JSON, and the canonical text is refused for what the check finds, and for nothing else.

* `canonicalText_checked`: a value is checked, and then refused or written.
-/

namespace PageBuilder.Json

/-- A check finds nothing just if all names in the value are texts and all atoms are those of JSON;
then there is a canonical text. Otherwise the canonical text is refused with the message of the
check, which tells of the first name or atom that JSON does not have, and of the way to it. -/
theorem canonicalText_checked (v : Value) :
    (v.offence? = none ↔ ∀ s : Sight, s.Stands v → s.spot.Sound) ∧
    (v.offence? = none → ∃ t, canonicalText v = .ok t) ∧
    ∀ o, v.offence? = some o →
      (canonicalText v).mapError CanonicalFault.message = .error o.message ∧
      ∃ s, v.Offends o s := by
  refine ⟨v.offence?_eq_none_iff_sound, canonicalText_ok, fun o ho => ?_⟩
  have hrefused : canonicalText v = .error (.offence o) := by
    rw [canonicalText, ho]
  rw [hrefused]
  exact ⟨rfl, Value.exists_offends ho⟩

/-- A name is told of before the value that it stands for. -/
example :
    let v : Value := .object [(.text "b", .tuple [.null, .object [(.atom (.int 2), .missing)]])]
    v.offence?.map Offence.message = some "Unsupported key type at $.b[1]: int" := by
  decide

end PageBuilder.Json
