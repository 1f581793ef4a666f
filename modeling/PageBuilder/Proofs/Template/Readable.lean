import PageBuilder.Proofs.Template.Occurrences
import PageBuilder.Proofs.Text.Parts

/-!
Keys of the data context that templates can read, whatever else is in the context: a key is found
under its whole name before the name is taken for a path.

* `Nameable`: the names that can stand in a reference;
* `evaluate_of_refersTo`: a reference to such a name stands for what the name leads to;
* `reads_of_get?`, `readsAlike_of_get?`: a field of that name is what it stands for.
-/

namespace PageBuilder.Template

/-- A name that can stand in a reference as it is. It may be one that is taken for a path where no
field has it. -/
structure Nameable (name : String) : Prop where
  ne_nil : name.toList ≠ []
  plain : ∀ c ∈ name.toList, isPlain c = true
  stripped : Text.trim name.toList = name.toList

/-- A text is a reference to a name, with blanks around the name. -/
def RefersTo (name s : String) : Prop :=
  ∃ before after, Blank before ∧ Blank after ∧
    s.toList = braced (before ++ (name.toList ++ after))

/-- In a context all references to a name stand for a value. -/
def Reads (context : Value) (name : String) (v : Value) : Prop :=
  ∀ s, RefersTo name s → evaluate context (.text s) = .ok v

/-- In two contexts all references to a name stand for the same. -/
def ReadsAlike (context context' : Value) (name : String) : Prop :=
  ∀ s, RefersTo name s → evaluate context (.text s) = evaluate context' (.text s)

section Names

variable {name s : String} {fields : Fields} {v : Value}

theorem isPlain_of_isBlank {c : Char} (h : Text.isBlank c = true) : isPlain c = true := by
  have hopening := ne_brace_of_isBlank h
  have hclosing : c ≠ '}' := by
    rintro rfl
    exact absurd h (by decide)
  simp [isPlain, hopening, hclosing]

/-- A reference to a name is one reference, and leads where the name leads. -/
theorem soleReference?_of_refersTo (hname : Nameable name) (hs : RefersTo name s) :
    soleReference? s.toList = some name := by
  obtain ⟨before, after, hbefore, hafter, heq⟩ := hs
  have htrimmed := Text.trimmed_of_trimBoth_eq_self hname.stripped
  have hpath : pathOf (before ++ (name.toList ++ after)) = name := by
    rw [pathOf, Text.trim, Text.trimBoth_padded hbefore hafter hname.ne_nil htrimmed,
      String.ofList_toList]
  refine soleReference?_eq_some_iff.mpr
    ⟨[], _, [], ⟨?_, ?_, ?_⟩, List.forall_mem_nil _, List.forall_mem_nil _, hpath.symm⟩
  · rw [heq, List.nil_append, List.append_nil]
  · simp [hname.ne_nil]
  · simp only [List.forall_mem_append]
    exact ⟨fun c hc => isPlain_of_isBlank (hbefore c hc), hname.plain,
      fun c hc => isPlain_of_isBlank (hafter c hc)⟩

/-- A reference to a name stands for what the name leads to. -/
theorem evaluate_of_refersTo (hname : Nameable name) (hs : RefersTo name s) :
    evaluate (.object fields) (.text s) = Path.lookup (.object fields) name := by
  simp only [evaluate, soleReference?_of_refersTo hname hs, Value.isObject, Bool.not_true,
    Bool.false_eq_true, ↓reduceIte]

/-- A field is read under its whole name, even where the name is also that of a path. -/
theorem reads_of_get? (hname : Nameable name) (h : Fields.get? fields name = some v) :
    Reads (.object fields) name v := by
  intro s hs
  have hliteral : Path.literal? (.object fields) (.text name) = some v := h
  rw [evaluate_of_refersTo hname hs, Path.lookup, hliteral]

theorem readsAlike_of_get? {others : Fields} (hname : Nameable name)
    (hsome : (Fields.get? fields name).isSome)
    (hsame : Fields.get? others name = Fields.get? fields name) :
    ReadsAlike (.object fields) (.object others) name := by
  obtain ⟨v, hv⟩ := Option.isSome_iff_exists.mp hsome
  intro s hs
  rw [reads_of_get? hname hv s hs, reads_of_get? hname (hsame.trans hv) s hs]

end Names

end PageBuilder.Template
