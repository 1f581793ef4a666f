import PageBuilder.Proofs.Action.Frame
import PageBuilder.Proofs.Action.Told
import PageBuilder.Proofs.Service.Answers

/-!
What is in the data context of a session, after any requests.

* `Stocked`: a session whose data are storable, with a tree and replies that keep them so;
* `Change.stocked`: every call keeps a session stocked;
* `ContextSound`: the data context is JSON-like, and calls that answer with it are answered;
* `contextSound_iff`: sessions stay so, whatever is requested, just if the replies are JSON-like
  as far as they are JSON at all;
* `not_contextSound_overflown`: one number that is too large is enough to spoil a session.
-/

namespace PageBuilder

open Value (Storable)

/-! ## Runs -/

namespace Run

/-- A run that leaves an object of storable values for data context, and storable replies, and that
tells of storable values. -/
structure Stocked (run : Run) : Prop where
  context : ∃ fields, run.context = .object fields ∧ (Value.object fields).Storable
  replies : ∀ reply ∈ run.replies, reply.Of Storable
  told : run.trace.Told

section Stocked

variable {env : Surroundings} {raws : Value} {context : Fields} {replies : List Reply} {run : Run}
  (hraws : raws.Storable) (hcontext : (Value.object context).Storable)
  (hreplies : ∀ reply ∈ replies, reply.Of Storable)

include hcontext hreplies

theorem refused_stocked (code : IssueCode) (message path : String) :
    (refused (.object context) replies code message path).Stocked :=
  ⟨⟨context, rfl, hcontext⟩, hreplies, List.forall_mem_singleton.mpr (.atom rfl),
    List.forall_mem_nil _⟩

include hraws

theorem entries_stocked {locals : Fields} (hlocals : (Value.object locals).Storable)
    (h : entries env locals raws (.object context) replies = .ok run) : run.Stocked := by
  unfold entries at h
  split at h
  · cases h
    exact ⟨⟨context, rfl, hcontext⟩, hreplies, List.forall_mem_nil _, List.forall_mem_nil _⟩
  · split at h
    · rename_i items
      cases h
      rw [Value.storable_list_iff] at hraws
      have hkeeps := Step.ofEntries_keeps Storable.closed hcontext hreplies env hlocals 0 hraws
      exact ⟨⟨_, rfl, hkeeps.context⟩, hkeeps.replies,
        Step.ofEntries_told hcontext hlocals hraws hreplies⟩
    · cases h
      exact refused_stocked hcontext hreplies ..

/-- A run on storable values leaves storable values, and tells of no others. -/
theorem actions_stocked {locals : Value} (hlocals : locals.Storable)
    (h : actions env raws locals (.object context) replies = .ok run) : run.Stocked := by
  unfold actions at h
  split at h
  · exact entries_stocked hraws hcontext hreplies Value.storable_empty h
  · exact entries_stocked hraws hcontext hreplies hlocals h
  · cases h
    exact refused_stocked hcontext hreplies ..

end Stocked

/-- What an event runs can always be told; it may be nothing. -/
theorem exists_eventActions (node : Value) (event : String) :
    ∃ actions, eventActions node (.text event) = .ok actions := by
  unfold eventActions
  split <;> exact ⟨_, rfl⟩

end Run

/-- A data context that is an object takes every value. -/
theorem Store.setContextValue_object {s : Store} {fields : Fields} (h : s.context = .object fields)
    (name : String) (v : Value) : s.setContextValue (.text name) v =
      (.ok (), { s with context := .object (Step.assign fields name v) }) := by
  unfold setContextValue
  simp only [h, fieldsOf]
  rfl

namespace Session

open PageBuilder.Tree (Kept)

/-! ## Stocked sessions -/

/-- A session whose data context is an object of storable values, as are the actions of its tree and
the replies that it will get. -/
structure Stocked (s : Session) : Prop where
  kept : Kept s.store.root
  context : ∃ fields, s.store.context = .object fields ∧ (Value.object fields).Storable
  replies : ∀ reply ∈ s.replies, reply.Of Storable

theorem storable_usualContext : usualContext.Storable := by
  simp [usualContext, Atom.offence?]

theorem reset_context (s : Session) {context : Value} (hcontext : context.Storable)
    (hshape : context.isNull = true ∨ context.isObject = true) :
    ∃ fields, (s.reset context).store.context = .object fields ∧
      (Value.object fields).Storable := by
  show ∃ fields, Store.contextOf (if context.isNull then usualContext else context) =
    .object fields ∧ _
  split
  · exact ⟨_, rfl, storable_usualContext⟩
  · rename_i hnull
    obtain ⟨fields, rfl⟩ := (Value.isObject_iff context).mp (hshape.resolve_left hnull)
    unfold Store.contextOf
    split
    · exact ⟨fields, rfl, hcontext⟩
    · exact ⟨[], rfl, Value.storable_empty⟩

theorem stocked_reset {s : Session} {context : Value} (hcontext : context.Storable)
    (hshape : context.isNull = true ∨ context.isObject = true)
    (hreplies : ∀ reply ∈ s.replies, reply.Of Storable) : (s.reset context).Stocked :=
  ⟨.initialRoot, s.reset_context hcontext hshape, hreplies⟩

/-- Every change of a stocked session keeps it stocked. -/
theorem Change.stocked {s t : Session} (h : Change s t) (hs : s.Stocked) : t.Stocked := by
  have hkept := h.step.kept hs.kept
  obtain ⟨fields, hfields, hstorable⟩ := hs.context
  cases h with
  | edit hedited =>
    refine ⟨hkept, ⟨fields, hedited.context.trans hfields, hstorable⟩, ?_⟩
    rw [hedited.replies]
    exact hs.replies
  | reset hgiven hshape => exact stocked_reset hgiven hshape hs.replies
  | @put name value store hgiven hdone =>
    rw [Store.setContextValue_object hfields] at hdone
    cases hdone
    have hassigned := Step.assign_closed Storable.closed hstorable name (.inr hgiven)
    exact ⟨hkept, ⟨_, rfl, hassigned⟩, hs.replies⟩
  | run hgiven hlocals hended =>
    rw [hfields] at hended
    have hrun := Run.actions_stocked hgiven hstorable hs.replies hlocals hended
    exact ⟨hkept, hrun.context, hrun.replies⟩

/-- The session after some requests. -/
def after (s : Session) (queries : List Inquiry) : Session :=
  queries.foldl (fun t q => (t.serve q).2) s

theorem after_cons (s : Session) (q : Inquiry) (queries : List Inquiry) :
    s.after (q :: queries) = (s.serve q).2.after queries := rfl

theorem Stocked.after {s : Session} (h : s.Stocked) (queries : List Inquiry) :
    (s.after queries).Stocked := by
  induction queries generalizing s with
  | nil => exact h
  | cons q rest ih =>
    rw [after_cons]
    exact ih ((serve_change h.kept.workable q).stocked h)

/-! ## Answers -/

section Answers

variable {s : Session} {body : List UInt8}

theorem context_sound (hs : s.Stocked) : (s.call body .context).answer.Sound := by
  obtain ⟨fields, hfields, hstorable⟩ := hs.context
  refine Answer.sound_ok (by simp) ?_ (List.forall_mem_nil _)
  rw [hfields]
  exact List.forall_mem_singleton.mpr hstorable

theorem putContextCall_sound (hs : s.Stocked) (key : String) :
    (s.putContextCall key body).answer.Sound := by
  refine withBody_sound fun v hv => ?_
  split
  · exact Answer.sound_error _ _ _ (by decide)
  · rename_i value hvalue
    obtain ⟨fields, hfields, hstorable⟩ := hs.context
    have hgiven : value.Storable := hv.get? hvalue
    simp only [Store.setContextValue_object hfields]
    refine Answer.sound_ok (by simp) (List.forall_mem_singleton.mpr ?_) (List.forall_mem_nil _)
    exact Step.assign_closed Storable.closed hstorable key (.inr hgiven)

theorem storable_notices {notices : List Notice} (h : ∀ n ∈ notices, n.message.Storable) :
    (Value.list (notices.map Notice.toValue)).Storable := by
  refine .list (List.forall_mem_map.mpr fun n hn => ?_)
  simp [Notice.toValue, h n hn, Atom.offence?]

theorem storable_effects (t : Trace) : t.effects.Storable := by
  have hkeys : (Value.list (t.stateKeys.map .text)).Storable :=
    .list (List.forall_mem_map.mpr fun key _ => .atom rfl)
  have hdeliveries : (Value.list (t.deliveries.map Delivery.toValue)).Storable := by
    refine .list (List.forall_mem_map.mpr fun d _ => ?_)
    simp [Delivery.toValue, Atom.offence?]
  refine (Value.storable_ofFields_iff _).mpr ⟨by simp, ?_⟩
  exact List.forall_mem_cons.mpr ⟨hkeys, List.forall_mem_singleton.mpr hdeliveries⟩

theorem runEventCall_sound (hs : s.Stocked) (id event : String) :
    (s.runEventCall id event body).answer.Sound := by
  refine withBody_sound fun v hv => withNode_sound hs.kept fun node hfound => ?_
  have hnode := Tree.workable_of_find hs.kept.workable hfound
  obtain ⟨fields, hfields, hstorable⟩ := hs.context
  obtain ⟨actions, hactions⟩ := Run.exists_eventActions node event
  obtain ⟨run, -, hrun, -⟩ := Run.exists_run s.surroundings actions (v.field "local_context")
    fields s.replies
  have hstocked := Run.actions_stocked (eventActions_storable hactions hnode) hstorable hs.replies
    (Storable.closed.field hv "local_context") hrun
  obtain ⟨after, hafter, hleft⟩ := hstocked.context
  simp only [hactions, hfields, bind, Except.bind, hrun]
  refine Answer.sound_ok (by simp) ?_ fun i hi =>
    hstocked.told.details i (List.mem_append_right _ hi)
  have herrors := storable_issues fun i hi =>
    hstocked.told.details i (List.mem_append_left _ hi)
  have hnotices := storable_notices hstocked.told.messages
  have hcontext := storable_jsonable (.inr (hafter.symm ▸ hleft))
  simp [herrors, hnotices, hcontext, storable_effects, Atom.offence?]

end Answers

/-! ## Sound sessions -/

end Session

/-- The calls that answer with the data context. -/
def Call.showsContext : Call → Bool
  | context => true
  | putContext _ => true
  | runEvent _ _ => true
  | _ => false

namespace Session

/-- The data context is JSON-like, and every call that answers with it is answered. -/
structure ContextSound (s : Session) : Prop where
  jsonLike : s.store.context.offence? = none
  answered : ∀ q call, Call.ofRequest? q.method q.path = some call → call.showsContext = true →
    (s.serve q).1.status ≠ 500

theorem Stocked.contextSound {s : Session} (hs : s.Stocked) : s.ContextSound := by
  refine ⟨?_, fun q call hcall hshows => serve_of_sound ?_⟩
  · obtain ⟨fields, hfields, hstorable⟩ := hs.context
    rw [hfields]
    exact hstorable.offence?
  · rw [outcome_of_call hcall]
    cases call with
    | context => exact context_sound hs
    | putContext key => exact putContextCall_sound hs key
    | runEvent id event => exact runEventCall_sound hs id event
    | _ => cases hshows

/-! ## A webhook without a mapping -/

/-- A webhook whose response is kept as the last result. -/
def hook : Value :=
  .ofFields [
    ("type", .text "n8n-webhook"),
    ("config", .ofFields [("url", .text "u"), ("method", .text "GET")])]

def hookFields : Value := .ofFields [("events", .ofFields [("e", .list [hook])])]

def hookText : String :=
  "\x7b\"events\":\x7b\"e\":[\x7b\"type\":\"n8n-webhook\"," ++
    "\"config\":\x7b\"url\":\"u\",\"method\":\"GET\"\x7d\x7d]\x7d\x7d"

/-- The request that puts the webhook into the page. -/
def hookUp : Inquiry := ⟨"PATCH", "/nodes/root", Text.Utf8.encode hookText, none⟩

def hookedRoot : Value :=
  Tree.putFields [(.text "events", .ofFields [("e", .list [hook])])] Store.initialRoot

/-- The request that runs the webhook. -/
def runHook : Inquiry := ⟨"POST", "/nodes/root/events/e/run", [], none⟩

theorem readBody_hookUp : readBody hookUp.body = .ok hookFields := by
  have hwritten : Json.write .compact 0 hookFields = .ok hookText.toList := by decide +kernel
  exact readBody_of_write (by simp [hookFields, hook, Atom.offence?]) hwritten (by decide +kernel)

/-- After a reset the webhook is put into the page. -/
theorem serve_hookUp (s : Session) (context : Value) :
    ((s.reset context).serve hookUp).2 =
      (s.reset context).withStore ((s.reset context).store.withRoot hookedRoot) := by
  have hcall : Call.ofRequest? "PATCH" "/nodes/root" = some (.patchNode "root") := by decide
  have hupdate : Tree.update Store.initialRoot (.text "root") hookFields =
      .ok (some hookedRoot) := by cbv
  exact serve_patchNode (q := hookUp) hcall readBody_hookUp hupdate

/-- The webhook takes the next reply; if that is JSON, it is the last result. -/
theorem ofEntry_hook (env : Surroundings) (context : Fields) (reply : Reply) (left : List Reply) :
    let after := Step.ofEntry env [] 0 hook context (reply :: left)
    after.replies = left ∧ ∀ status body payload, reply = .response status body →
      Json.valueOfOctets .strict body = .ok payload →
      after.context = Step.assign context Step.lastResultKey payload := by
  have hparse : Action.parse (Plan.entryPath 0) hook = .ok (.webhook ⟨"", "u", .get, .null, []⟩) :=
    rfl
  simp only [Step.ofEntry_of_parsed hparse, Step.reported_replies, Step.reported_context,
    Step.ofAction]
  have hcontent : Step.content (.object (Fields.merge context [])) context
      ⟨"", "u", .get, .null, []⟩ = .ok none := rfl
  simp only [Step.webhook, hcontent, nextReply]
  cases reply with
  | failure kind message =>
    refine ⟨rfl, fun _ _ _ hreply => ?_⟩
    cases hreply
  | response status body =>
    cases hread : Json.valueOfOctets .strict body with
    | error f =>
      simp only [Step.respond, hread]
      refine ⟨rfl, fun _ _ payload hreply hpayload => ?_⟩
      cases hreply
      rw [hread] at hpayload
      cases hpayload
    | ok payload =>
      simp only [Step.respond, hread]
      refine ⟨rfl, fun _ _ payload' hreply hpayload => ?_⟩
      cases hreply
      obtain rfl : payload = payload' := Except.ok.inj (hread.symm.trans hpayload)
      rfl

/-- A request to run the webhook runs it as the only entry. -/
theorem serve_runHook {s : Session} {context : Fields} (hroot : s.store.root = hookedRoot)
    (hcontext : s.store.context = .object context) :
    let after := Step.ofEntry s.surroundings [] 0 hook context s.replies
    (s.serve runHook).2 =
      { s with store := { s.store with context := .object after.context },
               replies := after.replies } := by
  have hcall : Call.ofRequest? "POST" "/nodes/root/events/e/run" =
      some (.runEvent "root" "e") := by decide
  have hfind : Tree.find hookedRoot (.text "root") = .ok (some hookedRoot) := by cbv
  have hactions : Run.eventActions hookedRoot (.text "e") = .ok (.list [hook]) := rfl
  let after := Step.ofEntry s.surroundings [] 0 hook context s.replies
  have hrun : Run.actions s.surroundings (.list [hook]) .null (.object context) s.replies =
      .ok ⟨.object after.context, after.replies, after.trace ++ {}⟩ := rfl
  rw [serve_session, outcome_of_call (q := runHook) hcall]
  show (s.runEventCall "root" "e" []).session = _
  unfold runEventCall withBody withNode
  rw [show readBody [] = .ok .null from rfl, hroot]
  simp only [hfind, hactions, hcontext, bind, Except.bind]
  rw [show Value.field .null "local_context" = .null from rfl, hrun]

/-- If the data context is JSON-like however often the webhook is run, all that is replied is. -/
theorem replies_jsonLike {s : Session} (hroot : s.store.root = hookedRoot)
    (hcontext : ∃ fields, s.store.context = .object fields)
    (h : ∀ n, (s.after (List.replicate n runHook)).store.context.offence? = none) :
    ∀ reply ∈ s.replies, reply.Of fun payload => payload.offence? = none := by
  induction hreplies : s.replies generalizing s with
  | nil => exact List.forall_mem_nil _
  | cons reply left ih =>
    -- One run takes one reply, so that the sessions after it tell of the replies that are left.
    obtain ⟨fields, hfields⟩ := hcontext
    obtain ⟨hleft, hpayload⟩ := ofEntry_hook s.surroundings fields reply left
    have hserve := serve_runHook hroot hfields
    rw [hreplies] at hserve
    have hnext : ∀ n, ((s.serve runHook).2.after
        (List.replicate n runHook)).store.context.offence? = none := by
      intro n
      have hlater := h (n + 1)
      rwa [List.replicate_succ, after_cons] at hlater
    have hrest := ih (by rw [hserve]; exact hroot) (by rw [hserve]; exact ⟨_, rfl⟩) hnext
      (by rw [hserve]; exact hleft)
    refine List.forall_mem_cons.mpr ⟨?_, hrest⟩
    cases reply with
    | failure kind message => trivial
    | response status body =>
      intro payload hread
      have hafter := hnext 0
      rw [hserve] at hafter
      -- A missing value would not be kept as the last result.
      have hthere := (Json.valueOfOctets_spelled hread).isMissing
      simp only [List.replicate_zero, after, List.foldl_nil, hpayload status body payload rfl hread,
        Step.assign, hthere, Bool.false_eq_true, if_false] at hafter
      exact Value.offence?_closed.fields hafter (.text Step.lastResultKey, payload)
        (Fields.mem_of_get? (Fields.get?_set ..))

/-- The last result is what was replied when the webhook was put into the page and run. -/
theorem context_hooked {s : Session} {context payload : Value} {fields : Fields} {status : Int}
    {body : List UInt8} {left : List Reply}
    (hcontext : (s.reset context).store.context = .object fields)
    (hreplies : s.replies = .response status body :: left)
    (hread : Json.valueOfOctets .strict body = .ok payload) :
    ((s.reset context).after [hookUp, runHook]).store.context =
      .object (Step.assign fields Step.lastResultKey payload) := by
  let hooked := (s.reset context).withStore ((s.reset context).store.withRoot hookedRoot)
  have hafter := (ofEntry_hook hooked.surroundings fields _ left).2 status body payload rfl hread
  have hserve := serve_runHook (s := hooked) rfl hcontext
  have hreplies' : hooked.replies = .response status body :: left := hreplies
  rw [hreplies'] at hserve
  rw [after_cons, serve_hookUp, after_cons, hserve, after, List.foldl_nil, hafter]

/-! ## All sessions -/

/-- The sessions that requests lead to after a reset keep their data context JSON-like and answer
with it, whatever is requested, just if all that is replied to webhooks and is JSON at all is
JSON-like. -/
theorem contextSound_iff (s : Session) {context : Value} (hcontext : context.Storable)
    (hshape : context.isNull = true ∨ context.isObject = true) :
    (∀ queries, ((s.reset context).after queries).ContextSound) ↔
      ∀ reply ∈ s.replies, reply.Of fun payload => payload.offence? = none := by
  constructor
  · intro h
    obtain ⟨fields, hfields, -⟩ := s.reset_context hcontext hshape
    let hooked := (s.reset context).withStore ((s.reset context).store.withRoot hookedRoot)
    refine replies_jsonLike (s := hooked) rfl ⟨fields, hfields⟩ fun n => ?_
    have hlater := (h (hookUp :: List.replicate n runHook)).jsonLike
    rwa [after_cons, serve_hookUp] at hlater
  · intro h queries
    have hreplies : ∀ reply ∈ s.replies, reply.Of Storable := by
      intro reply hreply
      cases reply with
      | failure kind message => trivial
      | response status body =>
        intro payload hread
        exact (Json.valueOfOctets_plain hread).storable (h _ hreply payload hread)
    exact ((stocked_reset hcontext hshape hreplies).after queries).contextSound

/-- A session of which one webhook is replied to. -/
def replied (text : String) : Session :=
  ⟨⟨none, Settings.usualVersion, []⟩, ⟨fun n => toString n, 0⟩, .start .null .null, 0,
    [.response 200 (Text.Utf8.encode text)]⟩

theorem contextSound_replied :
    Value.null.Storable ∧ (Value.null.isNull = true ∨ Value.null.isObject = true) ∧
      ∀ queries, (((replied "[5]").reset .null).after queries).ContextSound := by
  have hread : Json.valueOfOctets .strict (Text.Utf8.encode "[5]") = .ok (.list [.int 5]) := rfl
  have hreplies : ∀ reply ∈ (replied "[5]").replies,
      reply.Of fun payload => payload.offence? = none := by
    refine List.forall_mem_singleton.mpr fun payload hpayload => ?_
    obtain rfl : .list [.int 5] = payload := Except.ok.inj (hread.symm.trans hpayload)
    rfl
  exact ⟨.atom rfl, .inl rfl, (contextSound_iff _ (.atom rfl) (.inl rfl)).mpr hreplies⟩

def askContext : Inquiry := ⟨"GET", "/context", [], none⟩

theorem outcome_askContext (s : Session) :
    (s.outcome askContext).answer = .ok [("context", s.store.context)] := by
  have hcall : Call.ofRequest? "GET" "/context" = some .context := by decide
  rw [outcome_of_call (q := askContext) hcall]
  rfl

def smallContext : Value := .ofFields [("n", .int 1)]

def overflownContext : Value := .ofFields [("n", .int 1), ("lastResult", .float (.infinity false))]

/-- A number beyond the range of floats is read as an infinite one and kept in the data context,
which can not be answered with any more. -/
theorem not_contextSound_overflown :
    let s := ((replied "1e999").reset smallContext).after [hookUp, runHook]
    smallContext.offence? = none ∧ s.store.context = overflownContext ∧
      s.store.context.offence? ≠ none ∧ (s.serve askContext).1.status = 500 ∧
      ¬ s.ContextSound := by
  have hbefore : ((replied "1e999").reset smallContext).store.context =
      .object [(.text "n", .int 1)] := rfl
  have hreplies : (replied "1e999").replies = [.response 200 (Text.Utf8.encode "1e999")] := rfl
  have hread : Json.valueOfOctets .strict (Text.Utf8.encode "1e999") =
      .ok (.float (.infinity false)) := rfl
  have hassign : Value.object (Step.assign [(.text "n", .int 1)] Step.lastResultKey
      (.float (.infinity false))) = overflownContext := rfl
  have hcontext := (context_hooked hbefore hreplies hread).trans hassign
  have hoffence : overflownContext.offence? ≠ none := by decide
  have hsent : (Answer.ok [("context", overflownContext)]).sent? = none := by rfl
  rw [← hcontext] at hoffence hsent
  rw [← outcome_askContext] at hsent
  exact ⟨rfl, hcontext, hoffence, serve_of_not_sent hsent, fun h => hoffence h.jsonLike⟩

end Session

end PageBuilder
