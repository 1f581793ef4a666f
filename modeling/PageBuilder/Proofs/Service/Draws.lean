import PageBuilder.Proofs.Service.Context
import PageBuilder.Proofs.Tree.Settle

/-!
Draws of a session: nothing that a request does takes one back.

* `Fresh.settle_onward`: the values that are inserted draw onward;
* `Onward`: a session whose source is that of an earlier one, with no fewer draws;
* `serve_onward`, `after_onward`: one request and any requests lead onward.
-/

namespace PageBuilder

/-! ## Draws for nodes -/

namespace Fresh

variable (source : IdSource) (kind : ComponentKind)

theorem draw_onward (used : List String) (tries drawn : Nat) :
    drawn ≤ (draw source kind used tries drawn).2 := by
  induction tries generalizing drawn with
  | zero => exact Nat.le_refl _
  | succ tries ih =>
    rw [draw_succ]
    split
    · exact Nat.le_trans (Nat.le_succ drawn) (ih _)
    · exact Nat.le_succ drawn

theorem identify_onward (fields : Fields) (a : Allotment) :
    a.drawn ≤ (identify source kind fields a).2.drawn := by
  unfold identify
  split
  · exact Nat.le_refl _
  · have hdraw := draw_onward source kind a.used (tries source a.used) a.drawn
    split <;> rename_i heq <;> rw [heq] at hdraw <;> exact hdraw

theorem settleAll_onward {vs : List Value}
    (h : ∀ v ∈ vs, ∀ a : Allotment, a.drawn ≤ (settle source v a).2.drawn) (a : Allotment) :
    a.drawn ≤ (settleAll source vs a).2.drawn := by
  induction vs generalizing a with
  | nil =>
    refine Nat.le_of_eq ?_
    rw [settleAll]
  | cons v rest ih =>
    rw [List.forall_mem_cons] at h
    have hfirst := h.1 a
    rw [settleAll]
    split
    · rename_i heq
      rw [heq] at hfirst
      exact hfirst
    · rename_i b heq
      rw [heq] at hfirst
      have hothers := Nat.le_trans hfirst (ih h.2 b)
      split <;> rename_i heq <;> rw [heq] at hothers <;> exact hothers

/-- A value and all below it draw onward. -/
theorem settle_onward (v : Value) : ∀ a : Allotment, a.drawn ≤ (settle source v a).2.drawn := by
  induction v using Value.children_induction with
  | step v ih =>
    intro a
    rcases unfit_or_typed v with hunfit | ⟨fields, kind, rfl, htyped, hne⟩
    · refine Nat.le_of_eq ?_
      rw [settle_of_unfit hunfit]
    · have hidentify := identify_onward source kind fields a
      rw [settle_of_kind htyped hne]
      split
      · rename_i heq
        rw [heq] at hidentify
        exact hidentify
      · rename_i named b heq
        rw [heq] at hidentify
        have hall := Nat.le_trans hidentify (settleAll_onward source ih b)
        have hbelow := settlesBelow source kind (withProps named) (.object fields) b
        generalize settleBelow source kind _ _ b = outcome at hbelow ⊢
        cases hbelow with
        | leaf | empty | unlisted => exact hidentify
        | listed _ _ hsettled =>
          rw [hsettled] at hall
          exact hall
        | failed _ _ hfailed =>
          rw [hfailed] at hall
          exact hall

end Fresh

theorem Tree.insert_onward (source : IdSource) (drawn : Nat) (root parentId node : Value) :
    drawn ≤ (Tree.insert source drawn root parentId node).2 := by
  unfold Tree.insert Tree.insertSettled
  split
  · exact Nat.le_refl _
  · rename_i visits _
    split
    · exact Nat.le_refl _
    · have hsettle := Fresh.settle_onward source node
        ⟨(visits.map Visit.id).filterMap Value.text?, drawn⟩
      simp only
      split
      · exact Nat.le_refl _
      · split
        · exact Nat.le_refl _
        · split <;> rename_i heq <;> rw [heq] at hsettle <;> exact hsettle

namespace Store

variable (s : Store) (source : IdSource) (drawn : Nat) (parentId : Value)

theorem insert_onward (node : Value) : drawn ≤ (s.insert source drawn parentId node).drawn := by
  have hinsert := Tree.insert_onward source drawn s.root parentId node
  unfold insert inserted
  split <;> rename_i heq <;> rw [heq] at hinsert <;> exact hinsert

theorem add_onward (kind : Value) : drawn ≤ (s.add source drawn parentId kind).drawn := by
  unfold add Fresh.componentOf
  cases ComponentKind.insertable? kind with
  | none => exact Nat.le_refl _
  | some k =>
    have hinsert := s.insert_onward source (drawn + 1) parentId
      (Fresh.component k (Fresh.idText source k (drawn + 1)))
    show drawn ≤ (Insertion.selecting _).drawn
    unfold Insertion.selecting
    split <;> exact Nat.le_trans (Nat.le_succ drawn) hinsert

end Store

/-! ## Sessions -/

namespace Session

/-- A session whose source is that of an earlier one, with no fewer draws. -/
structure Onward (s t : Session) : Prop where
  source : t.source = s.source
  drawn : s.drawn ≤ t.drawn

theorem Onward.refl (s : Session) : Onward s s := ⟨rfl, Nat.le_refl _⟩

theorem Onward.trans {s t u : Session} (h : Onward s t) (h' : Onward t u) : Onward s u :=
  ⟨h'.source.trans h.source, Nat.le_trans h.drawn h'.drawn⟩

/-- Whatever becomes of the rest of a session, it is not behind if it has source and draws. -/
theorem Onward.withStore (s : Session) (store : Store) : Onward s (s.withStore store) :=
  ⟨rfl, Nat.le_refl _⟩

variable {s : Session} {body : List UInt8}

theorem answerEdit_onward (r : Except Fault Bool × Store) :
    Onward s (s.answerEdit r).session := by
  rw [answerEdit_session]
  exact .withStore ..

theorem answerActions_onward (payload : List (String × Value)) (warnings : List Issue)
    (r : Except Fault Bool × Store) : Onward s (s.answerActions payload warnings r).session := by
  rw [answerActions_session]
  exact .withStore ..

theorem addChildCall_onward (parentId : String) :
    Onward s (s.addChildCall parentId body).session := by
  refine withFields_cases (P := fun o => Onward s o.session) (fun _ _ _ _ _ => .refl s)
    fun fields _ => ?_
  simp only
  split
  · rw [answerInsertion_session]
    exact ⟨rfl, s.store.insert_onward ..⟩
  · split
    · exact .refl s
    · rw [answerInsertion_session]
      exact ⟨rfl, s.store.add_onward ..⟩

theorem addActionCall_onward (id event : String) :
    Onward s (s.addActionCall id event body).session := by
  have hnext : Onward s { s with drawn := s.drawn + 1 } := ⟨rfl, Nat.le_succ _⟩
  refine withBody_cases (P := fun o => Onward s o.session) (fun _ _ _ _ _ => .refl s)
    fun v _ => ?_
  simp only
  split
  · exact .refl s
  · refine withNode_cases (P := fun o => Onward s o.session) (fun _ _ _ _ _ => .refl s)
      (fun _ _ => .refl s) fun node _ => ?_
    split
    · exact .refl s
    · split
      · exact hnext
      · exact hnext.trans (answerActions_onward ..)

theorem patchActionCall_onward (id event actionId : String) :
    Onward s (s.patchActionCall id event actionId body).session := by
  refine withFields_cases (P := fun o => Onward s o.session) (fun _ _ _ _ _ => .refl s)
    fun config _ => ?_
  refine withNode_cases (P := fun o => Onward s o.session) (fun _ _ _ _ _ => .refl s)
    (fun _ _ => .refl s) fun node _ => ?_
  split
  · exact .refl s
  · split
    · exact .refl s
    · split
      · exact .refl s
      · exact answerActions_onward ..

theorem deleteActionCall_onward (id event actionId : String) :
    Onward s (s.deleteActionCall id event actionId).session := by
  refine withNode_cases (P := fun o => Onward s o.session) (fun _ _ _ _ _ => .refl s)
    (fun _ _ => .refl s) fun node _ => ?_
  split
  · exact .refl s
  · exact answerActions_onward ..

theorem runEventCall_onward (id event : String) :
    Onward s (s.runEventCall id event body).session := by
  refine withBody_cases (P := fun o => Onward s o.session) (fun _ _ _ _ _ => .refl s)
    fun v _ => ?_
  refine withNode_cases (P := fun o => Onward s o.session) (fun _ _ _ _ _ => .refl s)
    (fun _ _ => .refl s) fun node _ => ?_
  simp only
  split
  · exact .refl s
  · exact ⟨rfl, Nat.le_refl _⟩

theorem putContextCall_onward (key : String) : Onward s (s.putContextCall key body).session := by
  refine withBody_cases (P := fun o => Onward s o.session) (fun _ _ _ _ _ => .refl s)
    fun v _ => ?_
  split
  · exact .refl s
  · split <;> exact .withStore ..

theorem loadDocumentCall_onward : Onward s (s.loadDocumentCall body).session := by
  unfold loadDocumentCall
  simp only
  split
  · exact .withStore ..
  · split <;> exact .withStore ..

/-- Every call leads onward. -/
theorem call_onward (body : List UInt8) (c : Call) : Onward s (s.call body c).session := by
  cases c with
  | health => exact .refl s
  | tree =>
    show Onward s s.treeCall.session
    unfold treeCall
    split <;> exact .refl s
  | preview =>
    show Onward s (s.answerOf "root" s.store.preview).session
    unfold answerOf
    split <;> exact .refl s
  | node id =>
    refine withNode_cases (P := fun o => Onward s o.session) (fun _ _ _ _ _ => .refl s)
      (fun _ _ => .refl s) fun node _ => ?_
    split <;> exact .refl s
  | context => exact .refl s
  | document => exact .refl s
  | resetSession =>
    refine withBody_cases (P := fun o => Onward s o.session) (fun _ _ _ _ _ => .refl s)
      fun v _ => ?_
    simp only
    split
    · exact ⟨rfl, Nat.le_refl _⟩
    · exact .refl s
  | patchNode id =>
    exact withFields_cases (P := fun o => Onward s o.session) (fun _ _ _ _ _ => .refl s)
      fun _ _ => answerEdit_onward _
  | deleteNode id => exact answerEdit_onward _
  | reorder id =>
    refine withBody_cases (P := fun o => Onward s o.session) (fun _ _ _ _ _ => .refl s)
      fun v _ => ?_
    simp only
    split
    · exact .refl s
    · exact answerEdit_onward _
  | move id =>
    refine withFields_cases (P := fun o => Onward s o.session) (fun _ _ _ _ _ => .refl s)
      fun fields _ => ?_
    simp only
    split
    · exact .refl s
    · split
      · exact .refl s
      · exact answerEdit_onward _
  | select =>
    refine withBody_cases (P := fun o => Onward s o.session) (fun _ _ _ _ _ => .refl s)
      fun v _ => ?_
    simp only
    split
    · exact .withStore ..
    · exact .refl s
  | addChild parentId => exact addChildCall_onward parentId
  | addAction id event => exact addActionCall_onward id event
  | patchAction id event actionId => exact patchActionCall_onward id event actionId
  | deleteAction id event actionId => exact deleteActionCall_onward id event actionId
  | runEvent id event => exact runEventCall_onward id event
  | putContext key => exact putContextCall_onward key
  | loadDocument => exact loadDocumentCall_onward

theorem serve_onward (s : Session) (q : Inquiry) : Onward s (s.serve q).2 := by
  rw [serve_session]
  unfold outcome
  split
  · exact .refl s
  · split
    · exact .refl s
    · exact call_onward ..

/-- However many requests there are, they lead onward. -/
theorem after_onward (s : Session) (queries : List Inquiry) : Onward s (s.after queries) := by
  induction queries generalizing s with
  | nil => exact .refl s
  | cons q rest ih => exact (s.serve_onward q).trans (ih _)

end Session

end PageBuilder
