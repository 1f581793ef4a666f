import PageBuilder.Proofs.Service.Calls
import PageBuilder.Proofs.Service.Shown

/-!
What is sent back for a request: the call that it names, the status of an answer whose values are
storable, and bodies that are read.

* `outcome_of_call`: a request that names a call is answered by that call;
* `Answer.Sound`: an answer of storable values with a status of its own;
* `serve_of_sound`: such an answer is sent with its status;
* `sent?_answerTree`: an answer about a storable tree is sent;
* `readBody_of_write`: the text of a storable value is read as a body.
-/

namespace PageBuilder

open Value (Storable)

/-! ## Calls -/

theorem Call.ofSegments?_options (segments : List String) :
    ofSegments? "OPTIONS" segments = none := rfl

theorem Call.ofRequest?_options (path : String) : ofRequest? "OPTIONS" path = none := by
  unfold ofRequest?
  simp only [ofSegments?_options, ite_self]

/-! ## Answers -/

theorem storable_issues {issues : List Issue} (h : ∀ i ∈ issues, i.detail.Storable) :
    (Issue.listValue issues).Storable := by
  refine .list fun v hv => ?_
  obtain ⟨i, hi, rfl⟩ := List.mem_map.mp hv
  have hpath : (i.path.elim .null .text : Value).Storable := by
    cases i.path <;> exact .atom rfl
  simp [Issue.toValue, h i hi, hpath, Atom.offence?]

namespace Answer

/-- An answer of storable values, and not with the status of an internal error. -/
def Sound (a : Answer) : Prop :=
  ∃ status fields, a = .body status fields ∧ status ≠ 500 ∧ (Value.ofFields fields).Storable

theorem sound_ok {payload : List (String × Value)} {warnings : List Issue}
    (hnames : ("ok" :: payload.map Prod.fst ++ ["errors", "warnings"]).Nodup)
    (hpayload : ∀ p ∈ payload, p.2.Storable) (hwarnings : ∀ i ∈ warnings, i.detail.Storable) :
    (ok payload warnings).Sound := by
  refine ⟨200, _, rfl, by decide, (Value.storable_ofFields_iff _).mpr ⟨by simpa using hnames, ?_⟩⟩
  simp only [List.cons_append, List.forall_mem_cons, List.forall_mem_append]
  exact ⟨.atom rfl, hpayload, .list (List.forall_mem_nil _), storable_issues hwarnings,
    List.forall_mem_nil _⟩

theorem sound_error (code : IssueCode) (message path : String) {status : Nat}
    (hstatus : status ≠ 500) : (error code message path status).Sound := by
  refine ⟨status, _, rfl, hstatus, ?_⟩
  have hnone : (Issue.listValue []).Storable := storable_issues (List.forall_mem_nil _)
  have hone : (Issue.listValue [⟨code, message, some path, .null⟩]).Storable :=
    storable_issues (List.forall_mem_singleton.mpr (.atom rfl))
  simp [hnone, hone, Atom.offence?]

end Answer

namespace Session

variable {s : Session} {q : Inquiry}

/-- A request that names a call is answered by that call. -/
theorem outcome_of_call {c : Call} (h : Call.ofRequest? q.method q.path = some c) :
    s.outcome q = s.call q.body c := by
  unfold outcome
  split
  · rename_i hoptions
    rw [hoptions, Call.ofRequest?_options] at h
    cases h
  · simp only [h]

theorem outcome_patchNode {id : String} {fields : Fields}
    (h : Call.ofRequest? q.method q.path = some (.patchNode id))
    (hbody : readBody q.body = .ok (.object fields)) :
    s.outcome q = s.answerEdit (s.store.update (.text id) (.object fields)) := by
  rw [outcome_of_call h]
  show s.patchNodeCall id q.body = _
  unfold patchNodeCall withFields withBody
  rw [hbody]
  rfl

/-- Fields that may be put into a node are in the tree after the request. -/
theorem serve_patchNode {id : String} {fields : Fields} {root : Value}
    (h : Call.ofRequest? q.method q.path = some (.patchNode id))
    (hbody : readBody q.body = .ok (.object fields))
    (hupdate : Tree.update s.store.root (.text id) (.object fields) = .ok (some root)) :
    (s.serve q).2 = s.withStore (s.store.withRoot root) := by
  rw [serve_session, outcome_patchNode h hbody, answerEdit_session, Store.update, hupdate]
  rfl

/-- An answer has the status that it was given, or could not be written. -/
theorem serve_status {status : Nat} {fields : List (String × Value)}
    (h : (s.outcome q).answer = .body status fields) :
    (s.serve q).1.status = status ∨ (s.serve q).1.status = 500 := by
  unfold serve
  simp only [h]
  split
  · rename_i sent body hsent
    obtain ⟨v, -, hv⟩ := Option.bind_eq_some_iff.mp hsent
    split at hv
    · cases hv
      exact .inl rfl
    · cases hv
  · exact .inr rfl

/-- An answer has the status that it was given just if it could be written. -/
theorem serve_status_iff {status : Nat} {fields : List (String × Value)}
    (h : (s.outcome q).answer = .body status fields) (hstatus : status ≠ 500) :
    (s.serve q).1.status = status ↔ (s.outcome q).answer.sent?.isSome = true := by
  unfold serve
  simp only [h]
  split
  · rename_i sent body hsent
    obtain ⟨v, -, hv⟩ := Option.bind_eq_some_iff.mp hsent
    split at hv
    · cases hv
      simp [hsent]
    · cases hv
  · rename_i hsent
    simp [hsent, Answer.internal, hstatus.symm]

theorem serve_of_sent? {status : Nat} {body : Value}
    (h : (s.outcome q).answer.sent? = some (status, body)) :
    (s.serve q).1.status = status ∧ (s.serve q).1.body = body := by
  unfold serve
  simp only [h, and_self]

/-- An answer that can not be written is an internal error. -/
theorem serve_of_not_sent (h : (s.outcome q).answer.sent? = none) :
    (s.serve q).1.status = 500 := by
  unfold serve
  simp only [h, Answer.internal]

/-- An answer of storable values is sent with its status. -/
theorem serve_of_sound (h : (s.outcome q).answer.Sound) : (s.serve q).1.status ≠ 500 := by
  obtain ⟨status, fields, hanswer, hstatus, hstorable⟩ := h
  obtain ⟨w, hw⟩ := Answer.exists_sentAs hstorable
  have hsent : (Answer.body status fields).sent? = some (status, w) :=
    Answer.sent?_body hw.sent hw.storable
  rw [← hanswer] at hsent
  rw [(serve_of_sent? hsent).1]
  exact hstatus

/-! ## Answers about the tree -/

/-- What is selected is nothing or a text, which is sent as it is. -/
theorem shown_selected (h : s.store.SelectsText) :
    s.store.selected.Storable ∧ Answer.Shown s.store.selected := by
  unfold Store.SelectsText Value.isNull Value.isText at h
  rcases h with h | h <;> split at h
  · rename_i hnull
    rw [hnull]
    exact ⟨.atom rfl, .atom _⟩
  · cases h
  · rename_i htext
    rw [htext]
    exact ⟨.atom rfl, .atom _⟩
  · cases h

theorem digest_of_storable (h : s.store.root.Storable) : ∃ digest, s.store.digest = .ok digest := by
  obtain ⟨text, htext⟩ := Json.canonicalText_ok h.offence?
  exact ⟨Json.digestText text, by rw [Store.digest, Json.digest, htext]; rfl⟩

/-- The answer about a storable tree is sent as it is if nothing is hidden in it. -/
theorem sent?_answerTree (hroot : s.store.root.Storable) (hselected : s.store.SelectsText)
    (payload : List (String × Value)) (warnings : List Issue) (applied : Bool)
    (hnames : ("ok" :: payload.map Prod.fst ++
      ["applied", "tree_hash", "selected_id", "errors", "warnings"]).Nodup)
    (hpayload : ∀ p ∈ payload, Answer.isHidden (.text p.1) = false ∧ p.2.Storable ∧
      Answer.Shown p.2)
    (hwarnings : ∀ i ∈ warnings, i.detail = .null) :
    ∃ digest, s.store.digest = .ok digest ∧
      (s.answerTree payload applied warnings).answer.sent? =
        some (200, Answer.okBody (payload ++ [("applied", .bool applied),
          ("tree_hash", .text digest), ("selected_id", s.store.selected)]) warnings) := by
  obtain ⟨digest, hdigest⟩ := digest_of_storable hroot
  refine ⟨digest, hdigest, ?_⟩
  unfold answerTree
  simp only [hdigest]
  refine Answer.sent?_ok _ warnings (by simpa using hnames) ?_ hwarnings
  rw [List.forall_mem_append]
  exact ⟨hpayload, by simp +decide [shown_selected hselected, Atom.offence?]⟩

/-! ## Bodies -/

theorem withBody_sound {body : List UInt8} {next : Value → Outcome}
    (h : ∀ v, v.Storable → (next v).answer.Sound) : (s.withBody body next).answer.Sound :=
  withBody_cases (P := fun o => o.answer.Sound)
    (fun code message path _ hstatus => Answer.sound_error code message path hstatus)
    fun v hv => h v (readBody_storable hv)

theorem withNode_sound (hk : Tree.Kept s.store.root) {id : String} {next : Value → Outcome}
    (h : ∀ node, Tree.find s.store.root (.text id) = .ok (some node) → (next node).answer.Sound) :
    (s.withNode id next).answer.Sound := by
  refine withNode_cases (P := fun o => o.answer.Sound)
    (fun code message path _ hstatus => Answer.sound_error code message path hstatus)
    (fun f hf => ?_) h
  -- A tree is an object, so that all of it can be searched.
  have hobject := (hk.wellFormed.sound _ (Tree.self_mem_nodes _)).isObject
  rw [Tree.find, Tree.locate, Tree.walk, if_pos hobject] at hf
  cases hf

/-- The text of a storable value is read as a body. -/
theorem readBody_of_write {v : Value} (hv : v.Storable) {body : List UInt8} {text : List Char}
    (hwritten : Json.write .compact 0 v = .ok text) (hbody : Text.decodeDetected body = .ok text) :
    readBody body = .ok v := by
  have hread := Json.valueOfOctets_of_write Json.regular_compact hv .lenient hwritten hbody
  simp only [readBody, hread, hv.offence?]

end Session

end PageBuilder
