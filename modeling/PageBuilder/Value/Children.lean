import PageBuilder.Value.Equality

/-!
The children of a value: the members of its child list, whatever they are. A value is larger than
its child list, which lets functions on page trees go down from a node to its children.
-/

namespace PageBuilder

/-- The child list of a value, if it has one. -/
def Value.childList? : Value → Option (List Value)
  | .object fields =>
    match Fields.get? fields "children" with
    | some (.list items) => some items
    | _ => none
  | _ => none

def Value.children (v : Value) : List Value := v.childList?.getD []

theorem Fields.sizeOf_lt_of_find? {fields : Fields} {k : Key} {v : Value}
    (h : Fields.find? fields k = some v) : sizeOf v < sizeOf fields := by
  induction fields with
  | nil => simp [Fields.find?] at h
  | cons field rest ih =>
    obtain ⟨j, w⟩ := field
    unfold Fields.find? at h
    split at h
    · cases h
      simp only [List.cons.sizeOf_spec, Prod.mk.sizeOf_spec]
      omega
    · have := ih h
      simp only [List.cons.sizeOf_spec]
      omega

theorem Atom.sizeOf_pos (a : Atom) : 0 < sizeOf a := by
  cases a <;>
    simp only [missing.sizeOf_spec, null.sizeOf_spec, bool.sizeOf_spec, int.sizeOf_spec,
      float.sizeOf_spec, text.sizeOf_spec, octets.sizeOf_spec, foreign.sizeOf_spec] <;>
    omega

theorem Value.sizeOf_nil_lt (v : Value) : sizeOf ([] : List Value) < sizeOf v := by
  cases v with
  | atom a =>
    have := a.sizeOf_pos
    simp only [List.nil.sizeOf_spec, atom.sizeOf_spec]
    omega
  | list items =>
    have : 0 < sizeOf items := by cases items <;> simp only [List.nil.sizeOf_spec,
      List.cons.sizeOf_spec] <;> omega
    simp only [List.nil.sizeOf_spec, list.sizeOf_spec]
    omega
  | tuple items =>
    have : 0 < sizeOf items := by cases items <;> simp only [List.nil.sizeOf_spec,
      List.cons.sizeOf_spec] <;> omega
    simp only [List.nil.sizeOf_spec, tuple.sizeOf_spec]
    omega
  | object fields =>
    have : 0 < sizeOf fields := by cases fields <;> simp only [List.nil.sizeOf_spec,
      List.cons.sizeOf_spec] <;> omega
    simp only [List.nil.sizeOf_spec, object.sizeOf_spec]
    omega

theorem Value.sizeOf_children_lt (v : Value) : sizeOf v.children < sizeOf v := by
  cases v with
  | object fields =>
    simp only [children, childList?]
    split
    · rename_i items h
      have := Fields.sizeOf_lt_of_find? h
      simp only [list.sizeOf_spec] at this
      simp only [Option.getD_some, object.sizeOf_spec]
      omega
    · exact sizeOf_nil_lt _
  | atom a => exact sizeOf_nil_lt _
  | list items => exact sizeOf_nil_lt _
  | tuple items => exact sizeOf_nil_lt _

end PageBuilder
