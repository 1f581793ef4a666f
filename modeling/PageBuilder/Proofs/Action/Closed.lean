import PageBuilder.Action.Run
import PageBuilder.Proofs.Action.Parsed
import PageBuilder.Proofs.Value.Closed

/-!
What is in the data context of a run: values of one kind, if the actions, the local context and what
is replied are of that kind.

* `Action.parse_value`: the value of an action is a field of its configuration;
* `Step.Keeps`: a step leaves a data context and replies of a kind;
* `Step.ofEntries_keeps`: so does a list of actions.
-/

namespace PageBuilder

open Value (Closed)

/-! ## Values of actions -/

namespace Action

/-- The value that an action is given. -/
def value : Action → Value
  | setState _ _ value => value
  | consoleLog _ message => message
  | alert _ message => message
  | webhook hook => hook.body

theorem parseKind_value {id path : String} {config : Fields} {kind : ActionKind} {action : Action}
    (h : parseKind id path config kind = .ok action) :
    ∃ name, action.value = Fields.field config name := by
  cases kind with
  | setState =>
    unfold parseKind at h
    simp only at h
    split at h
    · cases h
    · cases h
      exact ⟨_, rfl⟩
  | consoleLog =>
    cases h
    exact ⟨_, rfl⟩
  | alert =>
    cases h
    exact ⟨_, rfl⟩
  | webhook =>
    obtain ⟨hook, hhook, rfl⟩ := map_eq_ok_iff.mp h
    obtain ⟨url, method, mapping, -, -, -, rfl⟩ := parseWebhook_eq_ok hhook
    exact ⟨_, rfl⟩

/-- The value of an action is of every kind that its entry is of. -/
theorem parse_value {P : Value → Prop} (hP : Closed P) {path : String} {raw : Value}
    {action : Action} (hraw : P raw) (h : parse path raw = .ok action) : P action.value := by
  obtain ⟨kind, id, config, hconfig, hkind⟩ := exists_parseKind h
  obtain ⟨name, hvalue⟩ := parseKind_value hkind
  rw [hvalue, hconfig]
  exact hP.field (hP.field hraw "config") name

end Action

/-! ## Steps -/

/-- A reply that is of a kind if it is JSON at all. -/
def Reply.Of (P : Value → Prop) : Reply → Prop
  | .response _ body => ∀ payload, Json.valueOfOctets .strict body = .ok payload → P payload
  | .failure .. => True

namespace Step

/-- A step leaves a data context of a kind, and replies that are of it. -/
structure Keeps (P : Value → Prop) (s : Step) : Prop where
  context : P (.object s.context)
  replies : ∀ reply ∈ s.replies, reply.Of P

section Keeps

variable {P : Value → Prop} (hP : Closed P) {context : Fields} (hcontext : P (.object context))
  {replies : List Reply} (hreplies : ∀ reply ∈ replies, reply.Of P)

include hP hcontext

theorem assign_closed (key : String) {v : Value} (hv : v = .missing ∨ P v) :
    P (.object (assign context key v)) := by
  unfold assign
  split
  · exact hP.erase hcontext key
  · rename_i hmissing
    rcases hv with rfl | hv
    · exact absurd rfl hmissing
    · exact hP.set hcontext hv key

include hreplies

theorem applyTargets_keeps {payload : Value} (hpayload : P payload) (path : String)
    (targets : List (String × String)) :
    (applyTargets path payload replies targets context).Keeps P := by
  induction targets generalizing context with
  | nil => exact ⟨hcontext, hreplies⟩
  | cons target rest ih =>
    obtain ⟨key, source⟩ := target
    unfold applyTargets
    split
    · exact ⟨hcontext, hreplies⟩
    · rename_i v hv
      split
      · exact ⟨(ih hcontext).context, (ih hcontext).replies⟩
      · have hnext := assign_closed hP hcontext key (Path.lookup_closed hP hpayload hv)
        exact ⟨(ih hnext).context, (ih hnext).replies⟩

theorem respond_keeps {status : Int} {body : List UInt8}
    (hreply : Reply.Of P (.response status body)) (path : String) (hook : Webhook) :
    (respond path hook status body context replies).Keeps P := by
  unfold respond
  split
  · exact ⟨hcontext, hreplies⟩
  · rename_i payload hpayload
    have hkeeps : (applyPayload path hook payload context replies).Keeps P := by
      unfold applyPayload
      split
      · exact ⟨assign_closed hP hcontext _ (.inr (hreply payload hpayload)), hreplies⟩
      · exact applyTargets_keeps hP hcontext hreplies (hreply payload hpayload) path hook.mapping
    exact ⟨hkeeps.context, hkeeps.replies⟩

theorem webhook_keeps (timeout : Value) (path : String) (merged : Value) (hook : Webhook) :
    (webhook timeout path merged context replies hook).Keeps P := by
  unfold webhook
  split
  · exact ⟨hcontext, hreplies⟩
  · cases replies with
    | nil => exact ⟨hcontext, hreplies⟩
    | cons reply left =>
      obtain ⟨hreply, hleft⟩ := List.forall_mem_cons.mp hreplies
      cases reply with
      | failure kind message => exact ⟨hcontext, hleft⟩
      | response status body =>
        have hkeeps := respond_keeps hP hcontext hleft hreply path hook
        exact ⟨hkeeps.context, hkeeps.replies⟩

theorem ofAction_keeps (env : Surroundings) (path : String) {merged : Value} (hmerged : P merged)
    {action : Action} (haction : P action.value) :
    (ofAction env path merged context replies action).Keeps P := by
  cases action with
  | consoleLog id message =>
    simp only [ofAction, log]
    split <;> exact ⟨hcontext, hreplies⟩
  | alert id message =>
    simp only [ofAction, alert]
    split
    · exact ⟨hcontext, hreplies⟩
    · split
      · exact ⟨hcontext, hreplies⟩
      · split <;> exact ⟨hcontext, hreplies⟩
  | setState id key value =>
    simp only [ofAction, setState]
    split
    · exact ⟨hcontext, hreplies⟩
    · rename_i v hv
      have hclosed := Template.evaluate_closed hP hmerged haction hv
      exact ⟨assign_closed hP hcontext key hclosed, hreplies⟩
  | webhook hook => exact webhook_keeps hP hcontext hreplies ..

theorem ofEntry_keeps (env : Surroundings) {locals : Fields} (hlocals : P (.object locals))
    (index : Nat) {raw : Value} (hraw : P raw) :
    (ofEntry env locals index raw context replies).Keeps P := by
  unfold ofEntry
  simp only
  split
  · exact ⟨hcontext, hreplies⟩
  · rename_i action haction
    have hkeeps := ofAction_keeps hP hcontext hreplies env (Plan.entryPath index)
      (hP.merge hcontext hlocals) (Action.parse_value hP hraw haction)
    unfold reported
    split
    · exact hkeeps
    · exact ⟨hkeeps.context, hkeeps.replies⟩

/-- A list of actions leaves a data context of a kind, and replies that are of it. -/
theorem ofEntries_keeps (env : Surroundings) {locals : Fields} (hlocals : P (.object locals))
    (index : Nat) {raws : List Value} (hraws : ∀ raw ∈ raws, P raw) :
    (ofEntries env locals index raws context replies).Keeps P := by
  induction raws generalizing index context replies with
  | nil => exact ⟨hcontext, hreplies⟩
  | cons raw rest ih =>
    obtain ⟨hraw, hrest⟩ := List.forall_mem_cons.mp hraws
    have hfirst := ofEntry_keeps hP hcontext hreplies env hlocals index hraw
    have hothers := ih hfirst.context hfirst.replies (index + 1) hrest
    exact ⟨hothers.context, hothers.replies⟩

end Keeps

end Step

end PageBuilder
