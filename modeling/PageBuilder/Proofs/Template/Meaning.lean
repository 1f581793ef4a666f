import PageBuilder.Proofs.Double.Rank
import PageBuilder.Proofs.Results
import PageBuilder.Proofs.Template.Occurrences

/-!
What a template stands for: the value of its reference, if it is one reference with blanks around
it, and otherwise its text with every reference replaced by the text of its value.

* `InsertedAs`: the text that a value is inserted as;
* `insertedAs_iff`: each value is inserted as one text;
* `interpolate_eq`: pieces one after the other, each filled in by itself;
* `evaluate_means`: what every text stands for in every context.
-/

namespace PageBuilder

theorem Double.integer?_eq_some_iff {x : Double} {n : Int} :
    x.integer? = some n ↔ x.isInteger n = true := by
  constructor
  · intro h
    exact (Option.filter_eq_some_iff.mp h).2
  · intro h
    have hone : (one : Int) ≠ 0 := by
      have hpos := one_pos
      omega
    have htruncate : x.truncate? = some n := by
      rw [truncate?, beq_iff_eq.mp h, Option.map_some, Int.mul_tdiv_cancel n hone]
    exact Option.filter_eq_some_iff.mpr ⟨htruncate, h⟩

namespace Template

/-! ## Texts of values -/

/-- The text that a value is inserted as. A number is written as in JSON, or by the word for it
where it is not finite, and without fraction if it has none and is not too large; lists and objects
are written as JSON if they can be, and everything else is shown. -/
inductive InsertedAs : Value → String → Prop where
  | missing : InsertedAs .missing ""
  | null : InsertedAs .null ""
  | text (s : String) : InsertedAs (.text s) s
  | yes : InsertedAs (.bool true) "true"
  | no : InsertedAs (.bool false) "false"
  | whole {x : Double} {n : Int} {s : String} (integral : x.isInteger n = true)
      (small : n.natAbs < 10 ^ 21) (written : Json.text .spaced (.int n) = .ok s) :
      InsertedAs (.float x) s
  | number {x : Double} {s : String}
      (other : ∀ n : Int, x.isInteger n = true → 10 ^ 21 ≤ n.natAbs)
      (written : Json.text .spaced (.float x) = .ok s) : InsertedAs (.float x) s
  | integer {n : Int} {s : String} (written : Json.text .spaced (.int n) = .ok s) :
      InsertedAs (.int n) s
  | written {v : Value} {s : String} (parted : ∀ a, v ≠ .atom a)
      (written : Json.compactText v = .ok s) : InsertedAs v s
  | unwritable {v : Value} {f : Json.WriteFault} (parted : ∀ a, v ≠ .atom a)
      (refused : Json.compactText v = .error f) : InsertedAs v v.shown
  | octets (bytes : List UInt8) : InsertedAs (.octets bytes) (Value.octets bytes).shown
  | foreign : InsertedAs .foreign Value.foreign.shown

theorem text_int (n : Int) :
    Json.text .spaced (.int n) = .ok (String.ofList (Json.intText n)) := rfl

theorem text_float (x : Double) :
    Json.text .spaced (.float x) = .ok (String.ofList (x.text Json.nonFiniteWords)) := by
  simp [Json.text, Json.write, Json.atomText, Json.plainText?, Json.doubleText, Json.Style.spaced,
    Except.map]

theorem insertedText_whole {x : Double} {n : Int} (hx : x.isInteger n = true)
    (hn : n.natAbs < 10 ^ 21) : insertedText (.float x) = String.ofList (Json.intText n) := by
  have hint := Double.integer?_eq_some_iff.mpr hx
  have hsmall : n.natAbs < plainBelow := hn
  simp only [insertedText, atomText, numberText, hint, if_pos hsmall]

theorem insertedText_number {x : Double}
    (hx : ∀ n : Int, x.isInteger n = true → 10 ^ 21 ≤ n.natAbs) :
    insertedText (.float x) = String.ofList (x.text Json.nonFiniteWords) := by
  simp only [insertedText, atomText, numberText]
  split
  · rename_i n hint
    have hlarge : plainBelow ≤ n.natAbs := hx n (Double.integer?_eq_some_iff.mp hint)
    rw [if_neg (Nat.not_lt.mpr hlarge)]
  · rfl

theorem insertedText_parted {v : Value} (hv : ∀ a, v ≠ .atom a) :
    insertedText v = match Json.compactText v with
      | .ok s => s
      | .error _ => v.shown := by
  cases v with
  | atom a => exact absurd rfl (hv a)
  | _ => rfl

theorem insertedAs_float (x : Double) : InsertedAs (.float x) (insertedText (.float x)) := by
  by_cases hx : ∃ n : Int, x.isInteger n = true ∧ n.natAbs < 10 ^ 21
  · obtain ⟨n, hint, hsmall⟩ := hx
    rw [insertedText_whole hint hsmall]
    exact .whole hint hsmall (text_int n)
  · have hother : ∀ n : Int, x.isInteger n = true → 10 ^ 21 ≤ n.natAbs :=
      fun n hint => Nat.le_of_not_lt fun hsmall => hx ⟨n, hint, hsmall⟩
    rw [insertedText_number hother]
    exact .number hother (text_float x)

theorem insertedAs_parted {v : Value} (hv : ∀ a, v ≠ .atom a) : InsertedAs v (insertedText v) := by
  rw [insertedText_parted hv]
  cases hwritten : Json.compactText v with
  | ok s => exact .written hv hwritten
  | error f => exact .unwritable hv hwritten

/-- Every value is inserted as one text. -/
theorem insertedAs_iff {v : Value} {s : String} : InsertedAs v s ↔ insertedText v = s := by
  constructor
  · intro h
    cases h with
    | whole hint hsmall hwritten =>
      rw [insertedText_whole hint hsmall]
      exact Except.ok.inj ((text_int _).symm.trans hwritten)
    | number hother hwritten =>
      rw [insertedText_number hother]
      exact Except.ok.inj ((text_float _).symm.trans hwritten)
    | integer hwritten => exact Except.ok.inj ((text_int _).symm.trans hwritten)
    | written hv hwritten => rw [insertedText_parted hv, hwritten]
    | unwritable hv hrefused => rw [insertedText_parted hv, hrefused]
    | _ => rfl
  · rintro rfl
    cases v with
    | atom a =>
      cases a with
      | missing => exact .missing
      | null => exact .null
      | bool b =>
        cases b with
        | true => exact .yes
        | false => exact .no
      | int n => exact .integer (text_int n)
      | float x => exact insertedAs_float x
      | text s => exact .text s
      | octets bytes => exact .octets bytes
      | foreign => exact .foreign
    | _ => exact insertedAs_parted fun a h => by cases h

/-! ## Texts of pieces -/

/-- What stands for a piece where every reference is replaced by a text. -/
def Piece.filled (t : List Char → String) : Piece → List Char
  | literal c => [c]
  | reference inner => (t inner).toList

/-- Pieces are filled in one by one. What is inserted is not looked at again. -/
theorem interpolate_eq {context : Value} {ps : List Piece} {t : List Char → String}
    (h : ∀ inner, .reference inner ∈ ps →
      (Path.lookup context (pathOf inner)).map insertedText = .ok (t inner)) :
    interpolate context ps = .ok (String.ofList (ps.flatMap (Piece.filled t))) := by
  induction ps with
  | nil => rfl
  | cons p ps ih =>
    have hp : pieceText context p = .ok (String.ofList (p.filled t)) := by
      cases p with
      | literal c => rfl
      | reference inner =>
        rw [Piece.filled, String.ofList_toList]
        exact h inner (List.mem_cons_self ..)
    rw [interpolate, hp, ih fun inner hinner => h inner (List.mem_cons_of_mem _ hinner),
      List.flatMap_cons, String.ofList_append]
    rfl

/-- Where no piece is a reference, nothing is replaced. -/
theorem filled_eq_source {ps : List Piece} (h : ∀ inner, .reference inner ∉ ps)
    (t : List Char → String) : ps.flatMap (Piece.filled t) = ps.flatMap Piece.source := by
  have hpiece : ∀ p ∈ ps, p.filled t = p.source := by
    intro p hp
    cases p with
    | literal c => rfl
    | reference inner => exact absurd hp (h inner)
  rw [List.flatMap_def, List.flatMap_def, List.map_congr_left hpiece]

theorem exists_occurs_of_mem_pieces {s inner : List Char} (h : .reference inner ∈ pieces s) :
    ∃ before after, Occurs s before inner after := by
  obtain ⟨qs, rs, heq⟩ := List.append_of_mem h
  exact ⟨_, _, ((dissects_pieces s).occurs_iff ..).mpr ⟨qs, rs, heq, rfl, rfl⟩⟩

/-! ## Templates -/

theorem evaluate_text (fields : Fields) (s : String) : evaluate (.object fields) (.text s) =
    match soleReference? s.toList with
    | some path => Path.lookup (.object fields) path
    | none => (interpolate (.object fields) (pieces s.toList)).map .text := rfl

/-- What a text stands for as a template, if `ps` is what it is taken apart into. -/
structure Meaning (context : Value) (s : String) (ps : List Piece) : Prop where
  /-- There is no other way to take the text apart. -/
  dissects_iff : ∀ qs, Dissects qs s.toList ↔ qs = ps
  apart : ∀ before inner after before' inner' after', Occurs s.toList before inner after →
    Occurs s.toList before' inner' after' →
      (before = before' ∧ inner = inner' ∧ after = after') ∨
        before.length + (braced inner).length ≤ before'.length ∨
        before'.length + (braced inner').length ≤ before.length
  references : references (.text s) = ps.filterMap Piece.path?
  /-- One reference with blanks around it stands for the value that it leads to. -/
  sole : ∀ before inner after, Occurs s.toList before inner after → Blank before → Blank after →
    evaluate context (.text s) = Path.lookup context (pathOf inner)
  /-- In any other text the references are replaced, each by the text of what it leads to. -/
  mixed : (¬ ∃ before inner after, Occurs s.toList before inner after ∧ Blank before ∧
      Blank after) →
    (∀ before inner after, Occurs s.toList before inner after →
      ∃ v, Path.lookup context (pathOf inner) = .ok v) →
    ∃ t : List Char → String,
      (∀ before inner after, Occurs s.toList before inner after →
        ∃ v, Path.lookup context (pathOf inner) = .ok v ∧ InsertedAs v (t inner)) ∧
      evaluate context (.text s) = .ok (.text (String.ofList (ps.flatMap (Piece.filled t))))
  plain : (∀ before inner after, ¬ Occurs s.toList before inner after) →
    evaluate context (.text s) = .ok (.text s)

section Meaning

variable {fields : Fields} {s : String}

theorem evaluate_of_mixed (t : List Char → String)
    (hmixed : ¬ ∃ before inner after, Occurs s.toList before inner after ∧ Blank before ∧
      Blank after)
    (ht : ∀ before inner after, Occurs s.toList before inner after →
      (Path.lookup (.object fields) (pathOf inner)).map insertedText = .ok (t inner)) :
    evaluate (.object fields) (.text s) =
      .ok (.text (String.ofList ((pieces s.toList).flatMap (Piece.filled t)))) := by
  have hsole : soleReference? s.toList = none := by
    rw [Option.eq_none_iff_forall_ne_some]
    intro path hpath
    obtain ⟨before, inner, after, hoccurs, hbefore, hafter, -⟩ :=
      soleReference?_eq_some_iff.mp hpath
    exact hmixed ⟨before, inner, after, hoccurs, hbefore, hafter⟩
  have hfound : ∀ inner, .reference inner ∈ pieces s.toList →
      (Path.lookup (.object fields) (pathOf inner)).map insertedText = .ok (t inner) := by
    intro inner hinner
    obtain ⟨before, after, hoccurs⟩ := exists_occurs_of_mem_pieces hinner
    exact ht before inner after hoccurs
  have hfilled := interpolate_eq hfound
  rw [evaluate_text, hsole, hfilled]
  rfl

theorem evaluate_of_plain (h : ∀ before inner after, ¬ Occurs s.toList before inner after) :
    evaluate (.object fields) (.text s) = .ok (.text s) := by
  have hnone : ∀ inner, .reference inner ∉ pieces s.toList := by
    intro inner hinner
    obtain ⟨before, after, hoccurs⟩ := exists_occurs_of_mem_pieces hinner
    exact h before inner after hoccurs
  rw [evaluate_of_mixed (fun _ => ""), filled_eq_source hnone, (dissects_pieces _).whole,
    String.ofList_toList]
  · rintro ⟨before, inner, after, hoccurs, -⟩
    exact h before inner after hoccurs
  · exact fun before inner after hoccurs => absurd hoccurs (h before inner after)

/-- What every text stands for as a template. The braces that belong to no reference, and whatever
else is outside of the references, stay as they are, and a value that is inserted is not searched
for references. -/
theorem evaluate_means (fields : Fields) (s : String) :
    Meaning (.object fields) s (pieces s.toList) where
  dissects_iff _ := dissects_iff
  apart _ _ _ _ _ _ h h' := h.apart h'
  references := rfl
  sole before inner after h hbefore hafter := by
    have hsole := soleReference?_eq_some_iff.mpr ⟨before, inner, after, h, hbefore, hafter, rfl⟩
    rw [evaluate_text, hsole]
  mixed hmixed hfound := by
    let t : List Char → String := fun inner =>
      match Path.lookup (.object fields) (pathOf inner) with
      | .ok v => insertedText v
      | .error _ => ""
    have ht : ∀ inner v, Path.lookup (.object fields) (pathOf inner) = .ok v →
        insertedText v = t inner := by
      intro inner v hv
      simp only [t, hv]
    refine ⟨t, fun before inner after h => ?_,
      evaluate_of_mixed t hmixed fun before inner after h => ?_⟩
    · obtain ⟨v, hv⟩ := hfound before inner after h
      exact ⟨v, hv, insertedAs_iff.mpr (ht inner v hv)⟩
    · obtain ⟨v, hv⟩ := hfound before inner after h
      exact map_eq_ok_iff.mpr ⟨v, hv, ht inner v hv⟩
  plain := evaluate_of_plain

end Meaning

end Template

end PageBuilder
