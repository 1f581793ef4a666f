import PageBuilder.Proofs.Path.Stalled
import PageBuilder.Proofs.Template.References

/-!
Templates and previews that have no value: those that refer to a path which can not be followed.

* `fails_evaluate_iff`: a template fails just if one of its references does;
* `fails_node_iff`: one such reference at any node is enough for a whole page to have no preview;
* `fails_iff_stalls`: what keeps paths, templates and previews from having a value.
-/

namespace PageBuilder.Template

variable {context : Value}

/-- Nothing fails for the references of what has none. -/
theorem not_fails_nil : ¬ ∃ path ∈ ([] : List String), Fails (Path.lookup context path) := by
  rintro ⟨path, hpath, -⟩
  exact List.not_mem_nil hpath

theorem fails_pieceText_iff {piece : Piece} :
    Fails (pieceText context piece) ↔
      ∃ path ∈ piece.path?.toList, Fails (Path.lookup context path) := by
  cases piece with
  | literal c => exact iff_of_false (not_fails_ok _) not_fails_nil
  | reference inner =>
    rw [pieceText, fails_map_iff, Piece.path?, Option.toList_some]
    simp only [List.mem_singleton, exists_eq_left]

theorem fails_interpolate_iff {ps : List Piece} :
    Fails (interpolate context ps) ↔
      ∃ path ∈ ps.filterMap Piece.path?, Fails (Path.lookup context path) := by
  induction ps with
  | nil => exact iff_of_false (not_fails_ok _) not_fails_nil
  | cons piece rest ih =>
    rw [interpolate, fails_both_iff fun _ _ => not_fails_pure _, ih, fails_pieceText_iff]
    cases piece with
    | literal c => simp [Piece.path?]
    | reference inner => simp [Piece.path?]

/-- A template fails just if one of its references can not be followed. -/
theorem fails_evaluate_iff (hcontext : context.isObject) {t : Value} :
    Fails (evaluate context t) ↔ ∃ path ∈ references t, Fails (Path.lookup context path) := by
  cases t with
  | atom a =>
    cases a with
    | text s =>
      simp only [evaluate, hcontext, Bool.not_true, Bool.false_eq_true, ↓reduceIte, references]
      cases hsole : soleReference? s.toList with
      | some path =>
        rw [references_of_soleReference? hsole]
        simp only [List.mem_singleton, exists_eq_left]
      | none => rw [fails_map_iff, fails_interpolate_iff]
    | _ => exact iff_of_false (not_fails_ok _) not_fails_nil
  | _ => exact iff_of_false (not_fails_ok _) not_fails_nil

theorem fails_evaluateFields_iff (hcontext : context.isObject) {fields : Fields} :
    Fails (evaluateFields context fields) ↔
      ∃ path ∈ fields.flatMap fun (_, t) => references t, Fails (Path.lookup context path) := by
  induction fields with
  | nil => exact iff_of_false (not_fails_ok _) not_fails_nil
  | cons f rest ih =>
    rw [evaluateFields, fails_both_iff fun _ _ => not_fails_pure _, ih, fails_evaluate_iff hcontext,
      List.flatMap_cons]
    simp only [List.mem_append, or_and_right, exists_or]

theorem fails_evaluateProps_iff (hcontext : context.isObject) {props : Value} :
    Fails (evaluateProps context props) ↔
      ∃ path ∈ (props.fields?.getD []).flatMap fun (_, t) => references t,
        Fails (Path.lookup context path) := by
  cases props with
  | object fields => exact fails_evaluateFields_iff hcontext
  | _ => exact iff_of_false (not_fails_ok _) not_fails_nil

end PageBuilder.Template

namespace PageBuilder.Preview

open PageBuilder.Template (references)

variable {context : Value}

theorem fails_shallow_iff (hcontext : context.isObject) {fields : Fields} :
    Fails (shallow context fields) ↔
      ∃ path ∈ ownReferences (.object fields), Fails (Path.lookup context path) := by
  have hown : (∃ path ∈ ownReferences (.object fields), Fails (Path.lookup context path)) ↔
      Fails (Template.evaluateProps context (Fields.field fields "props")) ∨
        Fails (Template.evaluate context (Fields.field fields "label")) := by
    rw [Template.fails_evaluateProps_iff hcontext, Template.fails_evaluate_iff hcontext,
      ownReferences]
    simp only [List.mem_append, or_and_right, exists_or]
    exact Or.comm
  rw [hown]
  unfold shallow
  cases hget : Fields.get? fields "label" with
  | none =>
    -- A label that is absent reads as null, which is no template.
    have hlabel : ¬ Fails (Template.evaluate context (Fields.field fields "label")) := by
      rw [Fields.field, hget]
      exact not_fails_ok _
    rw [or_iff_left hlabel]
    exact fails_bind_iff fun _ => not_fails_pure _
  | some label =>
    rw [Fields.field, Fields.field, hget]
    exact fails_both_iff fun _ _ => not_fails_pure _

theorem fails_nodes_iff {vs : List Value} {P : Value → Prop}
    (ih : ∀ v ∈ vs, v.isObject → (Fails (node context v) ↔ ∃ n ∈ Tree.nodes v, P n)) :
    Fails (nodes context vs) ↔ ∃ n ∈ Tree.nodesOf vs, P n := by
  induction vs with
  | nil =>
    rw [nodes]
    refine iff_of_false (not_fails_ok _) ?_
    rintro ⟨n, hn, -⟩
    rw [Tree.nodesOf_nil] at hn
    exact List.not_mem_nil hn
  | cons v rest ihRest =>
    have hrest := ihRest fun w hw => ih w (List.mem_cons_of_mem _ hw)
    rw [nodes]
    split
    · rename_i ho
      rw [fails_both_iff fun _ _ => not_fails_pure _, hrest, ih v (List.mem_cons_self ..) ho,
        Tree.nodesOf_cons ho]
      simp only [List.mem_append, or_and_right, exists_or]
    · rename_i ho
      rw [hrest, Tree.nodesOf, if_neg ho]

/-- A page has no preview just if some reference of some node can not be followed. -/
theorem fails_node_iff (hcontext : context.isObject) {root : Value} (hroot : root.isObject) :
    Fails (node context root) ↔
      ∃ n ∈ Tree.nodes root, ∃ path ∈ ownReferences n, Fails (Path.lookup context path) := by
  induction root using Value.children_induction with
  | step v ih =>
    obtain ⟨fields, rfl⟩ := (Value.isObject_iff v).mp hroot
    have hnodes := fails_nodes_iff fun w hw ho => ih w hw ho
    rw [node]
    simp only [hcontext, Bool.not_true, Bool.false_eq_true, ↓reduceIte, Value.fields?]
    rw [fails_both_iff, fails_shallow_iff hcontext, hnodes, Tree.nodes_eq]
    · simp only [List.mem_cons, or_and_right, exists_or, exists_eq_left]
    · intro out children
      split <;> exact not_fails_pure _

/-- What keeps paths, templates and previews from having a value: a path that is no name of a field
and comes upon a list with a step of digits among which there is a mark. -/
theorem fails_iff_stalls (doc : Value) (path : String) (fields own : Fields) (t : Value) :
    (Fails (Path.lookup doc path) ↔ doc.get? path = none ∧ Path.Stalls doc (Path.steps path)) ∧
    (Fails (Template.evaluate (.object fields) t) ↔
      ∃ path ∈ references t, Fails (Path.lookup (.object fields) path)) ∧
    (Fails (node (.object fields) (.object own)) ↔
      ∃ n ∈ Tree.nodes (.object own), ∃ path ∈ ownReferences n,
        Fails (Path.lookup (.object fields) path)) :=
  ⟨Path.fails_lookup_iff, Template.fails_evaluate_iff rfl, fails_node_iff rfl rfl⟩

/-- A context with a list, and a page whose label asks for an item of it by a superscript. -/
def oneItem : Value := .ofFields [("items", .list [.int 1])]

def squaredLabel : Value := .ofFields [
  ("id", .text "root"), ("type", .text "page"), ("label", .text "\x7b\x7b items.² \x7d\x7d"),
  ("props", .ofFields [])]

/-- The superscript is refused, where another digit that leads nowhere is a miss; and with it the
template and the whole page. -/
theorem squaredLabel_fails :
    Path.lookup oneItem "items.2" = .ok .missing ∧ Fails (Path.lookup oneItem "items.²") ∧
      Fails (Template.evaluate oneItem (.text "\x7b\x7b items.² \x7d\x7d")) ∧
      Fails (node oneItem squaredLabel) := by
  have hsteps : Path.steps "items.²" = ["items", "²"] := rfl
  have hreferences : references (.text "\x7b\x7b items.² \x7d\x7d") = ["items.²"] := by cbv
  have hown : ownReferences squaredLabel = ["items.²"] := by cbv
  have hlookup : Fails (Path.lookup oneItem "items.²") := by
    refine Path.fails_lookup_iff.mpr ⟨rfl, ?_⟩
    rw [hsteps]
    exact .onward rfl (.here rfl (by decide) ⟨'²', by decide, by decide⟩)
  refine ⟨rfl, hlookup, ?_, ?_⟩
  · refine (Template.fails_evaluate_iff rfl).mpr ⟨"items.²", ?_, hlookup⟩
    rw [hreferences]
    exact List.mem_singleton_self _
  · refine (fails_node_iff rfl rfl).mpr ⟨_, Tree.self_mem_nodes _, "items.²", ?_, hlookup⟩
    rw [hown]
    exact List.mem_singleton_self _

end PageBuilder.Preview
