import Mathlib.Data.List.Induction
import PageBuilder.Proofs.Action.Append
import PageBuilder.Proofs.Action.Body
import PageBuilder.Proofs.Action.Closed

/-!
The requests of a run, each with the entry that sends it and the data context at that entry.

* `Action.parse_webhook`: what a webhook takes from its configuration;
* `Step.ofEntry_requests`: an entry sends one request at most, whatever is replied;
* `Step.ofEntries_requests`: a list sends the requests of its entries, in order;
* `Run.requests_follow_entries`: all of this of whole runs, with what is read from each content.
-/

namespace PageBuilder

/-! ## Webhooks -/

namespace Action

/-- The name of a method in letters of any case; a value that is false stands for a post. -/
def NamesMethod (v : Value) (method : Method) : Prop :=
  (v.truthy = false ∧ method = .post) ∨
    ∃ s, v = .text s ∧ s.toList.flatMap Method.capitals = method.text.toList

theorem parseMethod_names {path : String} {v : Value} {method : Method}
    (h : parseMethod path v = .ok method) : NamesMethod v method := by
  unfold parseMethod at h
  split at h
  · rename_i hfalse
    cases h
    exact .inl ⟨by simpa using hfalse, rfl⟩
  · split at h
    · rename_i s _
      split at h
      · rename_i m hm
        cases h
        have hfound := List.find?_some hm
        exact .inr ⟨s, rfl, (eq_of_beq hfound).symm⟩
      · cases h
    · cases h

/-- A webhook has the address and the body of its configuration as they are, and the method that is
named there. -/
theorem parse_webhook {path : String} {raw : Value} {hook : Webhook}
    (h : parse path raw = .ok (.webhook hook)) :
    (raw.field "config").field "url" = .text hook.url ∧
      NamesMethod ((raw.field "config").field "method") hook.method ∧
      hook.body = (raw.field "config").field "body" := by
  obtain ⟨id, config, hconfig, hfound⟩ := exists_parseWebhook h
  rw [← hconfig, ← hconfig, ← hconfig]
  obtain ⟨url, method, mapping, hurl, hmethod, -, rfl⟩ := parseWebhook_eq_ok hfound
  exact ⟨((name?_eq_some_iff ..).mp hurl).1, parseMethod_names hmethod, rfl⟩

end Action

namespace Step

/-! ## Requests of entries -/

/-- The request that an entry sends on a data context: one if it is a webhook whose content can be
made. -/
def requestOf (timeout : Value) (locals : Fields) (index : Nat) (raw : Value) (context : Fields) :
    Option Request :=
  match Action.parse (Plan.entryPath index) raw with
  | .ok (.webhook hook) =>
    match content (.object (Fields.merge context locals)) context hook with
    | .ok text => some (.ofWebhook hook timeout text)
    | .error _ => none
  | _ => none

theorem exists_of_requestOf {timeout : Value} {locals : Fields} {index : Nat} {raw : Value}
    {context : Fields} {r : Request} (h : requestOf timeout locals index raw context = some r) :
    ∃ hook text, Action.parse (Plan.entryPath index) raw = .ok (.webhook hook) ∧
      content (.object (Fields.merge context locals)) context hook = .ok text ∧
      r = .ofWebhook hook timeout text := by
  unfold requestOf at h
  split at h
  · rename_i hook hparse
    split at h
    · rename_i text htext
      cases h
      exact ⟨hook, text, hparse, htext, rfl⟩
    · cases h
  · cases h

/-- What comes in sends nothing and is shown to nobody. -/
theorem respond_quiet (path : String) (hook : Webhook) (status : Int) (body : List UInt8)
    (context : Fields) (replies : List Reply) :
    let t := (respond path hook status body context replies).trace
    t.requests = [] ∧ t.notices = [] := by
  have htargets : ∀ (payload : Value) (targets : List (String × String)) (context : Fields),
      let t := (applyTargets path payload replies targets context).trace
      t.requests = [] ∧ t.notices = [] := by
    intro payload targets
    induction targets with
    | nil => exact fun _ => ⟨rfl, rfl⟩
    | cons target rest ih =>
      intro context
      obtain ⟨key, source⟩ := target
      unfold applyTargets
      split
      · exact ⟨rfl, rfl⟩
      · split <;> simp [ih]
  unfold respond
  split
  · exact ⟨rfl, rfl⟩
  · unfold applyPayload
    split
    · exact ⟨rfl, rfl⟩
    · simp [htargets]

theorem webhook_requests (timeout : Value) (path : String) (merged : Value) (context : Fields)
    (replies : List Reply) (hook : Webhook) :
    (webhook timeout path merged context replies hook).trace.requests =
      match content merged context hook with
      | .ok text => [.ofWebhook hook timeout text]
      | .error _ => [] := by
  cases hcontent : content merged context hook with
  | error f =>
    simp only [webhook, hcontent]
    rfl
  | ok text =>
    simp only [webhook, hcontent, Trace.requests_append]
    split
    · rfl
    · rw [(respond_quiet ..).1, List.append_nil]

theorem webhook_notices (timeout : Value) (path : String) (merged : Value) (context : Fields)
    (replies : List Reply) (hook : Webhook) :
    (webhook timeout path merged context replies hook).trace.notices = [] := by
  unfold webhook
  split
  · rfl
  · simp only [Trace.notices_append]
    split
    · rfl
    · rw [(respond_quiet ..).2, List.append_nil]

/-- No action but a webhook sends anything. -/
theorem ofAction_requests {env : Surroundings} {path : String} {merged : Value} {context : Fields}
    {replies : List Reply} {action : Action} (h : ∀ hook, action ≠ .webhook hook) :
    (ofAction env path merged context replies action).trace.requests = [] := by
  cases action with
  | consoleLog id message =>
    simp only [ofAction, log]
    split <;> rfl
  | alert id message =>
    simp only [ofAction, alert]
    split
    · rfl
    · split
      · rfl
      · split <;> rfl
  | setState id key value =>
    simp only [ofAction, setState]
    split <;> rfl
  | webhook hook => exact absurd rfl (h hook)

/-- An entry sends its request, whatever is replied to it. -/
theorem ofEntry_requests (env : Surroundings) (locals : Fields) (index : Nat) (raw : Value)
    (context : Fields) (replies : List Reply) :
    (ofEntry env locals index raw context replies).trace.requests =
      (requestOf env.timeout locals index raw context).toList := by
  unfold ofEntry requestOf
  simp only
  cases hparse : Action.parse (Plan.entryPath index) raw with
  | error r => rfl
  | ok action =>
    simp only [reported_requests]
    cases action with
    | webhook hook =>
      simp only [ofAction, webhook_requests]
      cases content (.object (Fields.merge context locals)) context hook <;> rfl
    | _ => exact ofAction_requests fun hook heq => by cases heq

/-! ## Requests of lists -/

/-- A list of actions sends the requests of its entries in order, each made on the data context that
the entries before it leave. -/
theorem ofEntries_requests (env : Surroundings) (locals : Fields) (raws : List Value)
    (context : Fields) (replies : List Reply) :
    (ofEntries env locals 0 raws context replies).trace.requests =
      raws.zipIdx.filterMap fun (raw, i) =>
        requestOf env.timeout locals i raw
          (ofEntries env locals 0 (raws.take i) context replies).context := by
  induction raws using List.reverseRecOn with
  | nil => rfl
  | append_singleton raws raw ih =>
    -- The entries before the last one see the same beginnings of the list.
    have hbefore : ∀ p ∈ raws.zipIdx, (raws ++ [raw]).take p.2 = raws.take p.2 := by
      intro p hp
      exact List.take_append_of_le_length (Nat.le_of_lt (List.snd_lt_of_mem_zipIdx hp))
    have hlast : ((raws ++ [raw]).take raws.length) = raws := List.take_left ..
    rw [ofEntries_append, List.zipIdx_append, List.filterMap_append]
    simp only [ofEntries, Trace.requests_append, Trace.append_empty, ofEntry_requests, ih]
    congr 1
    · exact List.filterMap_congr fun p hp => by simp only [hbefore p hp]
    · simp only [Nat.zero_add, List.zipIdx_singleton, List.filterMap_cons, List.filterMap_nil,
        hlast]
      cases requestOf env.timeout locals raws.length raw
        (ofEntries env locals 0 raws context replies).context <;> rfl

end Step

/-! ## Runs -/

/-- A reply of JSON has proper objects. -/
theorem Reply.of_proper (reply : Reply) : reply.Of Value.Proper := by
  cases reply with
  | response status body => exact fun payload hpayload => (Json.valueOfOctets_plain hpayload).proper
  | failure kind message => trivial

namespace Run

/-- A run sends one request for each entry that is a webhook whose content can be made, in order,
with the address as it is and the method that is named. A request that reads has no content. Any
other one has a text that is read, when the configured body and the data are JSON-like, as an
object: one field of it is the whole data context as the entries before leave it, and the others are
what the configured body says. -/
theorem requests_follow_entries (env : Surroundings) (raws : List Value) (locals context : Fields)
    (replies : List Reply) (hraws : ∀ raw ∈ raws, raw.Proper)
    (hlocals : (Value.object locals).Proper) (hcontext : (Value.object context).Proper) :
    ∃ (run : Run) (before : Nat → Fields),
      actions env (.list raws) (.object locals) (.object context) replies = .ok run ∧
      (∀ i, ∃ left trace,
        actions env (.list (raws.take i)) (.object locals) (.object context) replies =
          .ok ⟨.object (before i), left, trace⟩) ∧
      run.trace.requests = (raws.zipIdx.filterMap fun (raw, i) =>
        Step.requestOf env.timeout locals i raw (before i)) ∧
      ∀ (i : Nat) (raw : Value) (r : Request), raws[i]? = some raw →
        Step.requestOf env.timeout locals i raw (before i) = some r →
        let config := raw.field "config"
        config.field "url" = .text r.url ∧ Action.NamesMethod (config.field "method") r.method ∧
        (r.method = .get → r.content = none) ∧
        (r.method ≠ .get → (config.field "body").offence? = none →
          (Value.object locals).offence? = none → (Value.object (before i)).offence? = none →
          ∃ text fields members, r.content = some text ∧
            RequestBody.configured (.object (Fields.merge (before i) locals))
              (config.field "body") = .ok fields ∧
            Json.valueOfText .lenient text = .ok (.object members) ∧
            Fields.get? members "context" = some (Value.object (before i)).jsonable ∧
            Fields.erase members "context" =
              Fields.erase (Fields.jsonable fields) "context") := by
  let before (i : Nat) : Fields :=
    (Step.ofEntries env locals 0 (raws.take i) context replies).context
  refine ⟨_, before, actions_list .., fun i => ⟨_, _, actions_list ..⟩,
    Step.ofEntries_requests .., ?_⟩
  intro i raw r hraw hr config
  have hmem : raw ∈ raws := List.mem_of_getElem? hraw
  obtain ⟨hook, text?, hparse, hcontent, rfl⟩ := Step.exists_of_requestOf hr
  obtain ⟨hurl, hmethod, hbody⟩ := Action.parse_webhook hparse
  refine ⟨hurl, hmethod, fun hget => ?_, fun hget hbody' hlocals' hbefore' => ?_⟩
  · exact (Except.ok.inj ((Step.content_of_get hget).symm.trans hcontent)).symm
  · have hbefore : (Value.object (before i)).Proper :=
      (Step.ofEntries_keeps Value.Proper.closed hcontext (fun reply _ => reply.of_proper) env
        hlocals 0 fun raw hraw => hraws raw (List.mem_of_mem_take hraw)).context
    have hproper : (config.field "body").Proper :=
      Value.Proper.closed.field (Value.Proper.closed.field (hraws raw hmem) "config") "body"
    rw [← hbody] at hproper hbody' ⊢
    exact Step.content_reads hget
      (Value.JsonLike.closed.merge ⟨hbefore, hbefore'⟩ ⟨hlocals, hlocals'⟩) ⟨hbefore, hbefore'⟩
      ⟨hproper, hbody'⟩ hcontent

/-- A key is set, sent with a body that has a context of its own, and another key is set before a
request that reads. -/
def sending : List Value :=
  [.ofFields [("type", .text "setState"),
      ("config", .ofFields [("key", .text "a"), ("value", .int 1)])],
    .ofFields [("type", .text "n8n-webhook"), ("config", .ofFields [("url", .text "u"),
      ("body", .ofFields [("context", .text "own"), ("x", .tuple [.int 2])])])],
    .ofFields [("type", .text "setState"),
      ("config", .ofFields [("key", .text "b"), ("value", .int 3)])],
    .ofFields [("type", .text "n8n-webhook"),
      ("config", .ofFields [("url", .text "v"), ("method", .text "get")])]]

theorem requests_follow_sending :
    let locals : Fields := [(.text "a", .int 9)]
    ∃ (run : Run) (r s : Request) (text : String) (members : Fields),
      actions ⟨.silent, .null⟩ (.list sending) (.object locals) (.object []) [] = .ok run ∧
      run.trace.requests = [r, s] ∧ r.url = "u" ∧ r.method = .post ∧ r.content = some text ∧
      Json.valueOfText .lenient text = .ok (.object members) ∧
      Fields.get? members "context" = some (.ofFields [("a", .int 1)]) ∧
      Fields.erase members "context" = [(.text "x", .list [.int 2])] ∧
      s.url = "v" ∧ s.method = .get ∧ s.content = none := by
  intro locals
  have hraws : ∀ raw ∈ sending, raw.Proper := by
    simp [sending]
  have hlocals : (Value.object locals).Proper := by
    simp [locals, Value.proper_object_iff, Fields.Distinct]
  obtain ⟨run, before, hrun, hbefore, hrequests, hall⟩ :=
    requests_follow_entries ⟨.silent, .null⟩ sending locals [] [] hraws hlocals
      (by simp [Value.proper_object_iff, Fields.Distinct])
  have hstart (i : Nat) : before i =
      (Step.ofEntries ⟨.silent, .null⟩ locals 0 (sending.take i) [] []).context := by
    obtain ⟨left, trace, h⟩ := hbefore i
    rw [actions_list] at h
    exact (Value.object.inj (congrArg Run.context (Except.ok.inj h))).symm
  have hone : before 1 = [(.text "a", .int 1)] := hstart 1
  have hthree : before 3 = [(.text "a", .int 1), (.text "b", .int 3)] := hstart 3
  let headers := [("Content-Type", "application/json")]
  let r : Request :=
    ⟨.post, "u", headers, .null, some "\x7b\"context\": \x7b\"a\": 1\x7d, \"x\": [2]\x7d"⟩
  let s : Request := ⟨.get, "v", headers, .null, none⟩
  have hr : Step.requestOf .null locals 1 (sending.getD 1 .null) (before 1) = some r := by
    rw [hone]
    rfl
  have hs : Step.requestOf .null locals 3 (sending.getD 3 .null) (before 3) = some s := by
    rw [hthree]
    rfl
  have hsent : run.trace.requests = [r, s] := by
    rw [actions_list] at hrun
    exact (congrArg (·.trace.requests) (Except.ok.inj hrun)).symm
  obtain ⟨-, -, hget, -⟩ := hall 3 _ s rfl hs
  obtain ⟨-, -, -, hcontent⟩ := hall 1 _ r rfl hr
  obtain ⟨text, fields, members, htext, hfields, hread, hcontext, hothers⟩ :=
    hcontent (by decide) rfl rfl (by rw [hone]; rfl)
  cases hfields
  rw [hone] at hcontext
  exact ⟨run, r, s, text, members, hrun, hsent, rfl, rfl, htext, hread, hcontext, hothers, rfl, rfl,
    hget rfl⟩

end Run

end PageBuilder
