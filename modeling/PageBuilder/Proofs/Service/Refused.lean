import PageBuilder.Proofs.Service.Reload

/-!
A request that is refused changes nothing.

* `Response.Refuses`: an answer that refuses, by its status or because nothing was applied;
* `Untouched`: tree, data and selection are as before a request, and nothing was sent meanwhile;
* `Guarded`: an outcome that, where its answer may refuse, is of this kind;
* `call_guarded`: so is the outcome of every call;
* `refused_untouched`: no request that is refused touches a session.
-/

namespace PageBuilder

/-! ## Refusals -/

/-- The answer has a status for errors of the client, or tells that nothing was applied. -/
def Response.Refuses (r : Response) : Prop :=
  (400 ≤ r.status ∧ r.status < 500) ∨ (r.status = 200 ∧ r.body.field "applied" = .bool false)

/-- The answer has such a status, or a field that tells so. -/
def Answer.Refuses : Answer → Prop
  | body status fields => (400 ≤ status ∧ status < 500) ∨ ("applied", .bool false) ∈ fields
  | broken => False

/-- Of pairs each field of their object comes from one of them. -/
theorem Fields.mem_of_get?_ofPairs {pairs : Fields} {name : String} {v : Value}
    (h : get? (ofPairs pairs) name = some v) : (Key.text name, v) ∈ pairs :=
  have hnone : get? [] name = some v → (Key.text name, v) ∈ pairs := fun h => by cases h
  get?_merge (P := fun found => found = some v → (Key.text name, v) ∈ pairs) hnone
    (fun w hw heq => by cases heq; exact hw) h

namespace Answer

/-- A truth value is sent only for itself. -/
theorem eq_of_sendable?_bool {v : Value} {b : Bool} (h : sendable? v = some (.bool b)) :
    v = .bool b := by
  cases v with
  | atom a =>
    rw [sendable?] at h
    cases a with
    | octets bytes =>
      obtain ⟨text, -, htext⟩ := Option.map_eq_some_iff.mp h
      cases htext
    | missing => cases h
    | foreign => cases h
    | _ => exact Option.some.inj h
  | object fields =>
    rw [sendable?] at h
    obtain ⟨pairs, -, hpairs⟩ := Option.map_eq_some_iff.mp h
    cases hpairs
  | _ =>
    rw [sendable?] at h
    obtain ⟨items, -, hitems⟩ := Option.map_eq_some_iff.mp h
    cases hitems

/-- What is sent as a field was a field. -/
theorem exists_of_mem_sendableFields? {fields pairs : Fields}
    (h : sendableFields? fields = some pairs) :
    ∀ g ∈ pairs, ∃ f ∈ fields, sendableKey? f.1 = some g.1 ∧ sendable? f.2 = some g.2 := by
  induction fields generalizing pairs with
  | nil =>
    cases h
    exact List.forall_mem_nil _
  | cons f rest ih =>
    obtain ⟨k, v⟩ := f
    rw [sendableFields?] at h
    split at h
    · intro g hg
      obtain ⟨f, hf, hsent⟩ := ih h g hg
      exact ⟨f, List.mem_cons_of_mem _ hf, hsent⟩
    · obtain ⟨key, hkey, h⟩ := Option.bind_eq_some_iff.mp h
      obtain ⟨value, hvalue, h⟩ := Option.bind_eq_some_iff.mp h
      obtain ⟨others, hothers, h⟩ := Option.bind_eq_some_iff.mp h
      cases h
      refine List.forall_mem_cons.mpr ⟨⟨_, List.mem_cons_self .., hkey, hvalue⟩, fun g hg => ?_⟩
      obtain ⟨f, hf, hsent⟩ := ih hothers g hg
      exact ⟨f, List.mem_cons_of_mem _ hf, hsent⟩

/-- A truth value in a body that is sent was in the answer. -/
theorem mem_of_sent {fields : List (String × Value)} {body : Value} {name : String} {b : Bool}
    (h : sendable? (.ofFields fields) = some body) (hfield : body.field name = .bool b) :
    (name, .bool b) ∈ fields := by
  rw [Value.ofFields, sendable?] at h
  obtain ⟨pairs, hpairs, rfl⟩ := Option.map_eq_some_iff.mp h
  have hget : Fields.get? (Fields.ofPairs pairs) name = some (.bool b) := by
    rw [Value.field_eq] at hfield
    show (Value.object (Fields.ofPairs pairs)).get? name = _
    cases hvalue : (Value.object (Fields.ofPairs pairs)).get? name with
    | none =>
      rw [hvalue] at hfield
      cases hfield
    | some v =>
      rw [hvalue] at hfield
      exact congrArg some hfield
  obtain ⟨f, hf, hkey, hvalue⟩ :=
    exists_of_mem_sendableFields? hpairs _ (Fields.mem_of_get?_ofPairs hget)
  obtain ⟨⟨given, v⟩, hp, rfl⟩ := List.mem_map.mp hf
  cases hkey
  rw [show v = .bool b from eq_of_sendable?_bool hvalue] at hp
  exact hp

theorem refuses_ok_iff (payload : List (String × Value)) (warnings : List Issue) :
    (ok payload warnings).Refuses ↔ ("applied", .bool false) ∈ payload := by
  simp [ok, Refuses]

end Answer

namespace Session

variable {s : Session} {q : Inquiry}

/-- A response refuses only if the answer does. -/
theorem refuses_of_serve (h : (s.serve q).1.Refuses) : (s.outcome q).answer.Refuses := by
  unfold serve at h
  simp only at h
  split at h
  · rename_i status body hsent
    cases hanswer : (s.outcome q).answer with
    | broken =>
      rw [hanswer] at hsent
      cases hsent
    | body given fields =>
      rw [hanswer] at hsent
      obtain ⟨v, hv, hsent⟩ := Option.bind_eq_some_iff.mp hsent
      split at hsent
      · cases hsent
        exact h.imp_right fun h => Answer.mem_of_sent hv h.2
      · cases hsent
  · simp [Response.Refuses, Answer.internal] at h

/-- Tree, data and selection are after a request what they were before, and no request was sent to
any other service. -/
structure Untouched (s : Session) (q : Inquiry) : Prop where
  root : (s.serve q).2.store.root = s.store.root
  context : (s.serve q).2.store.context = s.store.context
  selected : (s.serve q).2.store.selected = s.store.selected
  requests : (s.serve q).1.requests = []

theorem serve_requests (s : Session) (q : Inquiry) :
    (s.serve q).1.requests = (s.outcome q).requests := by
  unfold serve
  simp only
  split <;> rfl

theorem untouched_iff (s : Session) (q : Inquiry) :
    s.Untouched q ↔ (s.outcome q).session.store = s.store ∧ (s.outcome q).requests = [] := by
  rw [← serve_session, ← serve_requests]
  constructor
  · rintro ⟨hroot, hcontext, hselected, hrequests⟩
    refine ⟨?_, hrequests⟩
    rw [← show Store.mk s.store.root s.store.context s.store.selected = s.store from rfl,
      ← hroot, ← hcontext, ← hselected]
  · rintro ⟨hstore, hrequests⟩
    exact ⟨congrArg Store.root hstore, congrArg Store.context hstore,
      congrArg Store.selected hstore, hrequests⟩

/-! ## Guarded outcomes -/

/-- If the answer refuses, the store is as before and nothing was sent. -/
def Guarded (s : Session) (o : Outcome) : Prop :=
  o.answer.Refuses → o.session.store = s.store ∧ o.requests = []

theorem Guarded.same {answer : Answer} {t : Session} (h : t.store = s.store) :
    Guarded s { session := t, answer } := fun _ => ⟨h, rfl⟩

theorem Guarded.broken {t : Session} : Guarded s { session := t, answer := .broken } :=
  fun h => h.elim

theorem Guarded.ok {t : Session} {payload : List (String × Value)} {warnings : List Issue}
    {requests : List Request} (h : ("applied", .bool false) ∉ payload) :
    Guarded s ⟨t, .ok payload warnings, requests⟩ :=
  fun hrefuses => absurd ((Answer.refuses_ok_iff payload warnings).mp hrefuses) h

theorem Guarded.answerTree {t : Session} {payload : List (String × Value)} {applied : Bool}
    {warnings : List Issue} (hpayload : ("applied", .bool false) ∉ payload)
    (h : applied = false → t.store = s.store) :
    Guarded s (t.answerTree payload applied warnings) := by
  unfold Session.answerTree
  split
  · exact .broken
  · cases applied with
    | false => exact .same (h rfl)
    | true => exact .ok (by simp [hpayload])

theorem Guarded.answerEdit {r : Except Fault Bool × Store} (h : r.1 = .ok false → r.2 = s.store) :
    Guarded s (s.answerEdit r) := by
  obtain ⟨result, store⟩ := r
  cases result with
  | error f => exact .broken
  | ok applied => exact .answerTree (by simp) fun hrefused => h (by rw [hrefused])

theorem Guarded.answerActions {t : Session} {payload : List (String × Value)}
    {warnings : List Issue} {r : Except Fault Bool × Store}
    (hpayload : ("applied", .bool false) ∉ payload) (h : r.1 = .ok false → r.2 = s.store) :
    Guarded s (t.answerActions payload warnings r) := by
  obtain ⟨result, store⟩ := r
  cases result with
  | error f => exact .broken
  | ok applied => exact .answerTree hpayload fun hrefused => h (by rw [hrefused])

theorem Guarded.answerInsertion {i : Store.Insertion}
    (h : i.result = .ok none → i.store = s.store) : Guarded s (s.answerInsertion i) := by
  unfold Session.answerInsertion
  simp only
  split
  · exact .broken
  · rename_i id hid
    refine .answerTree (by simp) fun hnone => h ?_
    rw [hid, Option.not_isSome_iff_eq_none.mp (Bool.eq_false_iff.mp hnone)]

/-! ## All calls -/

section Calls

variable {body : List UInt8}

theorem addChildCall_guarded (parentId : String) : Guarded s (s.addChildCall parentId body) := by
  refine withFields_cases (fun _ _ _ _ _ => .same rfl) fun fields _ => ?_
  simp only
  split
  · exact .answerInsertion Store.eq_of_insert_refused
  · split
    · exact .same rfl
    · exact .answerInsertion Store.eq_of_add_refused

theorem addActionCall_guarded (id event : String) :
    Guarded s (s.addActionCall id event body) := by
  refine withBody_cases (fun _ _ _ _ _ => .same rfl) fun v _ => ?_
  simp only
  split
  · exact .same rfl
  · refine withNode_cases (fun _ _ _ _ _ => .same rfl) (fun _ _ => .broken) fun node _ => ?_
    split
    · exact .broken
    · split
      · exact .broken
      · exact .answerActions (by simp) Store.eq_of_commit_refused

theorem patchActionCall_guarded (id event actionId : String) :
    Guarded s (s.patchActionCall id event actionId body) := by
  refine withFields_cases (fun _ _ _ _ _ => .same rfl) fun config _ => ?_
  refine withNode_cases (fun _ _ _ _ _ => .same rfl) (fun _ _ => .broken) fun node _ => ?_
  split
  · exact .broken
  · split
    · exact .same rfl
    · split
      · exact .broken
      · exact .answerActions (by simp) Store.eq_of_commit_refused

theorem deleteActionCall_guarded (id event actionId : String) :
    Guarded s (s.deleteActionCall id event actionId) := by
  refine withNode_cases (fun _ _ _ _ _ => .same rfl) (fun _ _ => .broken) fun node _ => ?_
  split
  · exact .broken
  · exact .answerActions (by simp) Store.eq_of_commit_refused

theorem runEventCall_guarded (id event : String) : Guarded s (s.runEventCall id event body) := by
  refine withBody_cases (fun _ _ _ _ _ => .same rfl) fun v _ => ?_
  refine withNode_cases (fun _ _ _ _ _ => .same rfl) (fun _ _ => .broken) fun node _ => ?_
  simp only
  split
  · exact .broken
  · exact .ok (by simp)

theorem putContextCall_guarded (key : String) : Guarded s (s.putContextCall key body) := by
  refine withBody_cases (fun _ _ _ _ _ => .same rfl) fun v _ => ?_
  split
  · exact .same rfl
  · split
    · exact .broken
    · exact .ok (by simp)

theorem loadDocumentCall_guarded : Guarded s (s.loadDocumentCall body) := by
  unfold loadDocumentCall
  simp only
  split
  · rename_i hrefused
    exact .same (Store.eq_of_accept_refused (by simpa using hrefused))
  · split
    · exact .broken
    · exact .ok (by simp)

/-- The outcome of every call is guarded. -/
theorem call_guarded (s : Session) (body : List UInt8) (c : Call) : Guarded s (s.call body c) := by
  cases c with
  | health => exact .same rfl
  | resetSession =>
    refine withBody_cases (fun _ _ _ _ _ => .same rfl) fun v _ => ?_
    simp only
    split
    · exact .ok (by simp)
    · exact .same rfl
  | tree =>
    show Guarded s s.treeCall
    unfold treeCall
    split
    · exact .broken
    · exact .same rfl
  | preview =>
    show Guarded s (s.answerOf "root" s.store.preview)
    unfold answerOf
    split
    · exact .broken
    · exact .same rfl
  | node id =>
    refine withNode_cases (fun _ _ _ _ _ => .same rfl) (fun _ _ => .broken) fun node _ => ?_
    split
    · exact .broken
    · exact .same rfl
  | addChild parentId => exact addChildCall_guarded parentId
  | patchNode id =>
    exact withFields_cases (fun _ _ _ _ _ => .same rfl) fun fields _ =>
      .answerEdit Store.eq_of_commit_refused
  | deleteNode id => exact .answerEdit Store.eq_of_remove_refused
  | reorder id =>
    refine withBody_cases (fun _ _ _ _ _ => .same rfl) fun v _ => ?_
    simp only
    split
    · exact .same rfl
    · exact .answerEdit Store.eq_of_commit_refused
  | move id =>
    refine withFields_cases (fun _ _ _ _ _ => .same rfl) fun fields _ => ?_
    simp only
    split
    · exact .same rfl
    · split
      · exact .same rfl
      · exact .answerEdit Store.eq_of_commit_refused
  | select =>
    refine withBody_cases (fun _ _ _ _ _ => .same rfl) fun v _ => ?_
    simp only
    split
    · exact .ok (by simp)
    · exact .same rfl
  | addAction id event => exact addActionCall_guarded id event
  | patchAction id event actionId => exact patchActionCall_guarded id event actionId
  | deleteAction id event actionId => exact deleteActionCall_guarded id event actionId
  | runEvent id event => exact runEventCall_guarded id event
  | context => exact .same rfl
  | putContext key => exact putContextCall_guarded key
  | document => exact .same rfl
  | loadDocument => exact loadDocumentCall_guarded

end Calls

theorem outcome_guarded (s : Session) (q : Inquiry) : Guarded s (s.outcome q) := by
  unfold outcome
  split
  · exact .same rfl
  · split
    · exact .same rfl
    · exact call_guarded s q.body _

/-- A request that is refused, with a status for errors of the client or because nothing was
applied, touches no session. -/
theorem refused_untouched (s : Session) (q : Inquiry) (h : (s.serve q).1.Refuses) :
    s.Untouched q :=
  (untouched_iff s q).mpr (outcome_guarded s q (refuses_of_serve h))

/-- A row that may not be inserted because of what it holds. -/
def misfit : Value :=
  .ofFields [("type", .text "row"), ("children", .list [.ofFields [("type", .text "page")]])]

def misfitText : String :=
  "\x7b\"node\":\x7b\"type\":\"row\",\"children\":[\x7b\"type\":\"page\"\x7d]\x7d\x7d"

/-- The request to insert that row, for which an identifier is drawn in vain. -/
def addMisfit : Inquiry := ⟨"POST", "/nodes/root/children", Text.Utf8.encode misfitText, none⟩

/-- The row itself is settled, the page below it is not. -/
theorem settle_misfit : ∃ used, Fresh.settle begun.source misfit ⟨["root"], 0⟩ =
    (.error .unfit, ⟨used, 1⟩) := by
  have hbelow : ∀ a, Fresh.settleAll begun.source [.ofFields [("type", .text "page")]] a =
      (.error .unfit, a) := by
    intro a
    unfold Fresh.settleAll Fresh.settle
    rfl
  have hchildren : misfit.children = [.ofFields [("type", .text "page")]] := rfl
  unfold Fresh.settle
  simp only [hchildren, hbelow]
  exact ⟨_, rfl⟩

theorem insert_misfit : begun.store.insert begun.source begun.drawn (.text "root") misfit =
    ⟨.ok none, begun.store, 1⟩ := by
  obtain ⟨used, hsettle⟩ := settle_misfit
  let page := Tree.Visit.start begun.store.root
  have hwalk : Tree.walk begun.store.root = .ok [page] := by cbv
  have hfind : [page].find? (fun v => v.id.same (.text "root")) = some page := rfl
  have hids : ([page].map Tree.Visit.id).filterMap Value.text? = ["root"] := rfl
  have hdrawn : begun.drawn = 0 := rfl
  unfold Store.insert Tree.insert Tree.insertSettled Store.inserted
  simp only [hwalk, hfind, hids, hdrawn, hsettle]
  rfl

/-- What is left of the request is the number of draws. -/
theorem outcome_addMisfit : begun.outcome addMisfit =
    ({ begun with drawn := 1 } : Session).answerTree [("id", .null)] false := by
  have hcall : Call.ofRequest? "POST" "/nodes/root/children" = some (.addChild "root") := by decide
  have hwritten : Json.write .compact 0 (.ofFields [("node", misfit)]) = .ok misfitText.toList := by
    decide +kernel
  have hread : readBody addMisfit.body = .ok (.ofFields [("node", misfit)]) :=
    readBody_of_write (by simp [misfit, Atom.offence?]) hwritten (by decide +kernel)
  rw [outcome_of_call (q := addMisfit) hcall]
  show begun.addChildCall "root" addMisfit.body = _
  unfold addChildCall withFields withBody
  rw [hread]
  show begun.answerInsertion (begun.store.insert begun.source begun.drawn (.text "root") misfit) = _
  rw [insert_misfit]
  rfl

theorem refuses_addMisfit : (begun.serve addMisfit).1.Refuses := by
  let drawn : Session := { begun with drawn := 1 }
  have hroot : drawn.store.root.Storable := Tree.Kept.initialRoot.plain.storable (by decide)
  obtain ⟨digest, -, hsent⟩ := sent?_answerTree hroot (.inl rfl) [("id", .null)] []
    false (by decide) (by simp +decide) (List.forall_mem_nil _)
  rw [← outcome_addMisfit] at hsent
  obtain ⟨hstatus, hbody⟩ := serve_of_sent? hsent
  refine .inr ⟨hstatus, ?_⟩
  rw [hbody]
  rfl

theorem misfit_untouched : (begun.serve addMisfit).1.Refuses ∧ begun.Untouched addMisfit :=
  ⟨refuses_addMisfit, refused_untouched begun addMisfit refuses_addMisfit⟩

end Session

end PageBuilder
