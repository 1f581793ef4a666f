import PageBuilder.Proofs.Service.Context
import PageBuilder.Proofs.Service.Refused

/-!
A request whose body is no JSON.

* `call_of_unparsed`: it is served as if there were no body;
* `Idle`: what has to hold of the session for a call without a body to do nothing;
* `unparsed_untouched_iff`: the request leaves the session untouched just if that holds;
* `not_untouched_halfReset`: a reset that is cut off discards the data of the session.
-/

namespace PageBuilder

/-- The calls that read their body as a value. -/
def Call.readsBody : Call → Bool
  | resetSession => true
  | addChild _ => true
  | patchNode _ => true
  | reorder _ => true
  | move _ => true
  | select => true
  | addAction _ _ => true
  | patchAction _ _ _ => true
  | runEvent _ _ => true
  | putContext _ => true
  | _ => false

namespace Session

variable {s : Session} {q : Inquiry} {c : Call} {body : List UInt8}

/-! ## Calls without a body -/

theorem readBody_of_unparsed (h : ∃ f, Json.valueOfOctets .lenient body = .error f) :
    readBody body = .ok .null := by
  obtain ⟨f, hf⟩ := h
  unfold readBody
  rw [hf]

/-- A body that is no JSON is taken for none. -/
theorem call_of_unparsed (hreads : c.readsBody = true)
    (h : ∃ f, Json.valueOfOctets .lenient body = .error f) : s.call body c = s.call [] c := by
  have hsame : ∀ next, s.withBody body next = s.withBody [] next := by
    intro next
    unfold withBody
    rw [readBody_of_unparsed h]
    rfl
  cases c with
  | resetSession => exact hsame _
  | addChild parentId => exact hsame _
  | patchNode id => exact hsame _
  | reorder id => exact hsame _
  | move id => exact hsame _
  | select => exact hsame _
  | addAction id event => exact hsame _
  | patchAction id event actionId => exact hsame _
  | runEvent id event => exact hsame _
  | putContext key => exact hsame _
  | _ => cases hreads

/-- The session has nothing that a call without a body would change: a new session has nothing to
reset, without a selection there is nothing to give up, and actions may do nothing. -/
def Idle (s : Session) : Call → Prop
  | .resetSession => s.store = .start .null usualContext
  | .select => s.store.selected = .null
  | .runEvent id event => ∀ node actions run,
      Tree.find s.store.root (.text id) = .ok (some node) →
      Run.eventActions node (.text event) = .ok actions →
      Run.actions s.surroundings actions .null s.store.context s.replies = .ok run →
      run.context = s.store.context ∧ run.trace.requests = []
  | _ => True

/-- A run without local data does nothing just if the session is idle. -/
theorem runEvent_untouched_iff (id event : String) :
    (s.call [] (.runEvent id event)).session.store = s.store ∧
      (s.call [] (.runEvent id event)).requests = [] ↔ s.Idle (.runEvent id event) := by
  show (s.withNode id _).session.store = s.store ∧ (s.withNode id _).requests = [] ↔ _
  unfold withNode
  cases hfind : Tree.find s.store.root (.text id) with
  | error f =>
    refine iff_of_true ⟨rfl, rfl⟩ fun node actions run hnode => ?_
    cases hfind.symm.trans hnode
  | ok found =>
    cases found with
    | none =>
      refine iff_of_true ⟨rfl, rfl⟩ fun node actions run hnode => ?_
      cases hfind.symm.trans hnode
    | some node =>
      obtain ⟨actions, hactions⟩ := Run.exists_eventActions node event
      have honly : s.Idle (.runEvent id event) ↔ ∀ run,
          Run.actions s.surroundings actions .null s.store.context s.replies = .ok run →
            run.context = s.store.context ∧ run.trace.requests = [] := by
        refine ⟨fun h run => h node actions run hfind hactions, fun h => ?_⟩
        intro node' actions' run hnode hactions'
        cases hfind.symm.trans hnode
        cases hactions.symm.trans hactions'
        exact h run
      rw [honly]
      have hlocals : Value.null.field "local_context" = .null := rfl
      simp only [hactions, bind, Except.bind, hlocals]
      cases hrun : Run.actions s.surroundings actions .null s.store.context s.replies with
      | error f => exact iff_of_true ⟨rfl, rfl⟩ fun run hrun => by cases hrun
      | ok run =>
        constructor
        · rintro ⟨hstore, hrequests⟩ _ heq
          cases heq
          exact ⟨congrArg Store.context hstore, hrequests⟩
        · intro h
          obtain ⟨hcontext, hrequests⟩ := h run rfl
          refine ⟨?_, hrequests⟩
          simp only [hcontext]

/-- A request whose body is no JSON leaves the session untouched just if there is nothing that the
call would change without a body. -/
theorem unparsed_untouched_iff (hcall : Call.ofRequest? q.method q.path = some c)
    (hreads : c.readsBody = true) (hbody : ∃ f, Json.valueOfOctets .lenient q.body = .error f) :
    s.Untouched q ↔ s.Idle c := by
  rw [untouched_iff, outcome_of_call hcall, call_of_unparsed hreads hbody]
  have refused : ∀ {code message path},
      (Outcome.error s code message path).session.store = s.store ∧
        (Outcome.error s code message path).requests = [] := ⟨rfl, rfl⟩
  cases c with
  | resetSession => exact ⟨fun h => h.1.symm, fun h => ⟨h.symm, rfl⟩⟩
  | addChild parentId => exact iff_of_true refused trivial
  | patchNode id => exact iff_of_true refused trivial
  | reorder id => exact iff_of_true refused trivial
  | move id => exact iff_of_true refused trivial
  | select =>
    show { s.store with selected := .null } = s.store ∧ _ ↔ s.store.selected = .null
    refine ⟨fun h => (congrArg Store.selected h.1).symm, fun h => ⟨?_, rfl⟩⟩
    rw [← h]
  | addAction id event => exact iff_of_true refused trivial
  | patchAction id event actionId => exact iff_of_true refused trivial
  | runEvent id event => exact runEvent_untouched_iff id event
  | putContext key => exact iff_of_true refused trivial
  | _ => cases hreads

/-- A request to add a child that was cut off after its first character. -/
def halfAdd : Inquiry := ⟨"POST", "/nodes/root/children", Text.Utf8.encode "\x7b", none⟩

theorem unparsed_half : ∃ f, Json.valueOfOctets .lenient (Text.Utf8.encode "\x7b") = .error f :=
  ⟨_, rfl⟩

theorem halfAdd_untouched :
    Call.ofRequest? halfAdd.method halfAdd.path = some (.addChild "root") ∧
      (Call.addChild "root").readsBody = true ∧
      (∃ f, Json.valueOfOctets .lenient halfAdd.body = .error f) ∧ begun.Untouched halfAdd := by
  have hcall : Call.ofRequest? halfAdd.method halfAdd.path = some (.addChild "root") := by decide
  exact ⟨hcall, rfl, unparsed_half,
    (unparsed_untouched_iff hcall rfl unparsed_half).mpr trivial⟩

/-- A request to reset the session that was cut off. -/
def halfReset : Inquiry := ⟨"POST", "/session/reset", Text.Utf8.encode "\x7b", none⟩

/-- A reset that is cut off is carried out as if there were no body: the data are given up. -/
theorem not_untouched_halfReset :
    let s := begun.reset smallContext
    halfReset.body ≠ [] ∧ (∃ f, Json.valueOfOctets .lenient halfReset.body = .error f) ∧
      s.store.context = smallContext ∧ (s.serve halfReset).2.store.context = usualContext ∧
      ¬ s.Untouched halfReset := by
  have hcall : Call.ofRequest? "POST" "/session/reset" = some .resetSession := by decide
  have hempty : (begun.reset smallContext).call halfReset.body .resetSession =
      (begun.reset smallContext).call [] .resetSession := call_of_unparsed rfl unparsed_half
  have hcontext : ((begun.reset smallContext).serve halfReset).2.store.context = usualContext := by
    rw [serve_session, outcome_of_call (q := halfReset) hcall, hempty]
    rfl
  refine ⟨by decide, unparsed_half, rfl, hcontext, fun h => ?_⟩
  have hsame : usualContext = smallContext := hcontext.symm.trans h.context
  have hfield : Value.null = .int 1 := congrArg (fun v => v.field "n") hsame
  cases hfield

end Session

end PageBuilder
