import PageBuilder.Issue
import PageBuilder.Preview
import PageBuilder.Proofs.Tree.Nodes

/-!
What templates and previews read of the data context: nothing but the paths that they refer to.

* `pieces_of_reference?`, `pieces_cons_of_none`: how a text falls into pieces;
* `references_of_soleReference?`: a text that is one reference refers to its path and to nothing
  else;
* `evaluate_of_agree`: two contexts that agree on the references of a template give it one value;
* `node_of_agree`: two contexts that agree on the references of all nodes give one preview.
-/

namespace PageBuilder.Template

/-! ## Pieces -/

theorem pieces_of_reference? {s inner after : List Char} (h : reference? s = some (inner, after)) :
    pieces s = .reference inner :: pieces after := by
  cases s with
  | nil => cases h
  | cons c rest =>
    rw [pieces]
    split
    · rename_i hsome
      rw [h] at hsome
      cases hsome
      rfl
    · rename_i hnone
      rw [h] at hnone
      cases hnone

theorem pieces_cons_of_none {c : Char} {rest : List Char} (h : reference? (c :: rest) = none) :
    pieces (c :: rest) = .literal c :: pieces rest := by
  rw [pieces]
  split
  · rename_i hsome
    rw [h] at hsome
    cases hsome
  · rfl

theorem reference?_eq_none_of_ne {c : Char} (h : c ≠ '{') (rest : List Char) :
    reference? (c :: rest) = none := by
  unfold reference?
  split
  · rename_i heq
    exact absurd (List.cons.inj heq).1 h
  · rfl

theorem ne_brace_of_isBlank {c : Char} (h : Text.isBlank c = true) : c ≠ '{' := by
  rintro rfl
  revert h
  decide

theorem references_of_blank {s : List Char} (h : s.all Text.isBlank = true) :
    (pieces s).filterMap Piece.path? = [] := by
  induction s with
  | nil => rw [pieces, List.filterMap_nil]
  | cons c rest ih =>
    rw [List.all_cons, Bool.and_eq_true] at h
    have hnone := reference?_eq_none_of_ne (ne_brace_of_isBlank h.1) rest
    rw [pieces_cons_of_none hnone, List.filterMap_cons_none (by rfl), ih h.2]

/-- A text that is one reference refers to its path and to nothing else. -/
theorem references_of_soleReference? {s : List Char} {path : String}
    (h : soleReference? s = some path) : (pieces s).filterMap Piece.path? = [path] := by
  induction s with
  | nil => cases h
  | cons c rest ih =>
    by_cases hc : Text.isBlank c = true
    · have hnone := reference?_eq_none_of_ne (ne_brace_of_isBlank hc) rest
      rw [pieces_cons_of_none hnone, List.filterMap_cons_none (by rfl)]
      apply ih
      rw [soleReference?, List.dropWhile_cons_of_pos hc] at h
      exact h
    · rw [soleReference?, List.dropWhile_cons_of_neg hc] at h
      split at h
      · rename_i inner after href
        split at h
        · rename_i hafter
          cases h
          rw [pieces_of_reference? href, List.filterMap_cons_some (by rfl),
            references_of_blank hafter]
        · cases h
      · cases h

/-! ## Agreement -/

/-- Two contexts give the same for each of some paths, be it a value or a fault. -/
def Agree (c d : Value) (paths : List String) : Prop :=
  ∀ path ∈ paths, Path.lookup c path = Path.lookup d path

section Agreement

variable {c d : Value}

theorem Agree.mono {paths others : List String} (h : Agree c d paths) (hsub : others ⊆ paths) :
    Agree c d others :=
  fun path hpath => h path (hsub hpath)

theorem pieceText_of_agree {piece : Piece} (h : Agree c d piece.path?.toList) :
    pieceText c piece = pieceText d piece := by
  cases piece with
  | literal _ => rfl
  | reference inner => rw [pieceText, pieceText, h _ (List.mem_singleton_self _)]

theorem interpolate_of_agree {ps : List Piece} (h : Agree c d (ps.filterMap Piece.path?)) :
    interpolate c ps = interpolate d ps := by
  induction ps with
  | nil => rfl
  | cons piece rest ih =>
    have hpiece : Agree c d piece.path?.toList := by
      refine h.mono fun path hpath => List.mem_filterMap.mpr ⟨piece, List.mem_cons_self .., ?_⟩
      exact Option.mem_toList.mp hpath
    have hrest : Agree c d (rest.filterMap Piece.path?) :=
      h.mono ((List.sublist_cons_self piece rest).filterMap Piece.path?).subset
    rw [interpolate, interpolate, pieceText_of_agree hpiece, ih hrest]

/-- The value of a template depends on what its references lead to and on nothing else. -/
theorem evaluate_of_agree (hc : c.isObject) (hd : d.isObject) {t : Value}
    (h : Agree c d (references t)) : evaluate c t = evaluate d t := by
  cases t with
  | atom a =>
    cases a with
    | text s =>
      simp only [evaluate, hc, hd, Bool.not_true, Bool.false_eq_true, ↓reduceIte]
      cases hsole : soleReference? s.toList with
      | some path =>
        refine h path ?_
        rw [references, references_of_soleReference? hsole]
        exact List.mem_singleton_self path
      | none => simp only [interpolate_of_agree h]
    | _ => rfl
  | _ => rfl

theorem evaluateFields_of_agree (hc : c.isObject) (hd : d.isObject) {fields : Fields}
    (h : Agree c d (fields.flatMap fun (_, t) => references t)) :
    evaluateFields c fields = evaluateFields d fields := by
  induction fields with
  | nil => rfl
  | cons f rest ih =>
    rw [List.flatMap_cons] at h
    have hfirst := evaluate_of_agree hc hd (h.mono (List.subset_append_left ..))
    have hrest := ih (h.mono (List.subset_append_right ..))
    rw [evaluateFields, evaluateFields, hfirst, hrest]

end Agreement

end PageBuilder.Template

namespace PageBuilder.Preview

open PageBuilder.Template (Agree references)

/-! ## Nodes -/

/-- The paths that the templates of one node refer to: those of its label and of its properties. -/
def ownReferences (v : Value) : List String :=
  references (v.field "label") ++
    (((v.field "props").fields?).getD []).flatMap fun (_, t) => references t

section Agreement

variable {c d : Value}

theorem shallow_of_agree (hc : c.isObject) (hd : d.isObject) {fields : Fields}
    (h : Agree c d (ownReferences (.object fields))) :
    shallow c fields = shallow d fields := by
  have hprops : Template.evaluateProps c (Fields.field fields "props") =
      Template.evaluateProps d (Fields.field fields "props") := by
    have hown := h.mono (List.subset_append_right ..)
    rw [Value.field] at hown
    cases hv : Fields.field fields "props" with
    | object props =>
      rw [hv] at hown
      exact Template.evaluateFields_of_agree hc hd hown
    | _ => rfl
  have hlabel : Template.evaluate c (Fields.field fields "label") =
      Template.evaluate d (Fields.field fields "label") :=
    Template.evaluate_of_agree hc hd (h.mono (List.subset_append_left ..))
  unfold shallow
  rw [hprops]
  cases hget : Fields.get? fields "label" with
  | none => rfl
  | some label =>
    rw [Fields.field, hget, Option.getD_some] at hlabel
    simp only [hlabel]

theorem nodes_of_agree {vs : List Value} (ih : ∀ v ∈ vs, v.isObject → node c v = node d v) :
    nodes c vs = nodes d vs := by
  induction vs with
  | nil => rw [nodes, nodes]
  | cons v rest ihRest =>
    have hrest := ihRest fun w hw => ih w (List.mem_cons_of_mem _ hw)
    rw [nodes, nodes, hrest]
    split
    · rename_i ho
      rw [ih v (List.mem_cons_self ..) ho]
    · rfl

theorem node_of_agree (hc : c.isObject) (hd : d.isObject) {root : Value}
    (h : ∀ v ∈ Tree.nodes root, Agree c d (ownReferences v)) : node c root = node d root := by
  induction root using Value.children_induction with
  | step v ih =>
    have hnodes : nodes c v.children = nodes d v.children := by
      refine nodes_of_agree fun w hw ho => ih w hw fun m hm => h m ?_
      exact Tree.mem_nodes_of_child hw ho hm
    rw [node, node]
    simp only [hc, hd, Bool.not_true, Bool.false_eq_true, ↓reduceIte, hnodes]
    cases hv : v.fields? with
    | none => rfl
    | some fields =>
      obtain rfl := Value.fields?_eq_some hv
      simp only [shallow_of_agree hc hd (h _ (Tree.self_mem_nodes _))]

/-- Two contexts that agree on the references of all nodes give one preview, or fail in one way; and
no template reads a path that is not among its references. -/
theorem preview_of_agree (hc : c.isObject) (hd : d.isObject) (root : Value) :
    ((∀ v ∈ Tree.nodes root, Agree c d (ownReferences v)) → node c root = node d root) ∧
      ∀ t, Agree c d (references t) → Template.evaluate c t = Template.evaluate d t :=
  ⟨node_of_agree hc hd, fun _ => Template.evaluate_of_agree hc hd⟩

end Agreement

/-- A component with a reference in brackets between other text. -/
def totalLine : Value := .ofFields [
  ("id", .text "total"), ("type", .text "text"),
  ("props", .ofFields [("value", .text " \x7b\x7b sum['net'] \x7d\x7d of \x7b\x7bn\x7d\x7d")])]

/-- A page with a member that is no component, a label that is one reference, and a reference after
a brace that belongs to none. -/
def totalPage : Value := .ofFields [
  ("id", .text "root"), ("type", .text "page"),
  ("label", .text "\n\x7b\x7b user.name \x7d\x7d "),
  ("props", .ofFields [("size", .int 3), ("title", .text "\x7b\x7b\x7bn\x7d\x7d\x7d")]),
  ("children", .list [.int 5, totalLine])]

/-- A context in which one path is the name of a field and another one leads down. -/
def dottedName : Value := .ofFields [
  ("user.name", .text "A"), ("n", .int 1), ("sum", .ofFields [("net", .int 5)]),
  ("secret", .int 1)]

/-- The same the other way round. -/
def bracketedSum : Value := .ofFields [
  ("secret", .null), ("sum['net']", .int 5), ("user", .ofFields [("name", .text "A")]),
  ("n", .int 1)]

theorem nodes_totalPage : Tree.nodes totalPage = [totalPage, totalLine] := by
  have hpage : totalPage.children = [.int 5, totalLine] := rfl
  have hline : totalLine.children = [] := rfl
  rw [Tree.nodes_eq, hpage, Tree.nodesOf, if_neg (by decide), Tree.nodesOf_cons rfl, Tree.nodes_eq,
    hline, Tree.nodesOf_nil, List.append_nil]

theorem agree_totals : ∀ v ∈ Tree.nodes totalPage,
    Agree dottedName bracketedSum (ownReferences v) := by
  have hpage : ownReferences totalPage = ["user.name", "n"] := by cbv
  have hline : ownReferences totalLine = ["sum['net']", "n"] := by cbv
  have hname : Path.lookup dottedName "user.name" = Path.lookup bracketedSum "user.name" := by cbv
  have hsum : Path.lookup dottedName "sum['net']" = Path.lookup bracketedSum "sum['net']" := by cbv
  have hn : Path.lookup dottedName "n" = Path.lookup bracketedSum "n" := by cbv
  rw [nodes_totalPage]
  simp [Agree, hpage, hline, hname, hsum, hn]

/-- Two contexts with one preview, though what is asked of them is found in different places. -/
theorem preview_of_agree_totals :
    dottedName.isObject = true ∧ bracketedSum.isObject = true ∧
      (∀ v ∈ Tree.nodes totalPage, Agree dottedName bracketedSum (ownReferences v)) ∧
      node dottedName totalPage = node bracketedSum totalPage :=
  ⟨rfl, rfl, agree_totals, (preview_of_agree rfl rfl totalPage).1 agree_totals⟩

end PageBuilder.Preview
