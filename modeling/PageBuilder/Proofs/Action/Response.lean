import PageBuilder.Proofs.Action.Requests
import PageBuilder.Proofs.Action.Written

/-!
What an answered webhook does with the payload.

* `Step.hits`, `Step.misses`: the targets of a mapping that lead to something in a payload, and those
  that do not;
* `Step.applyTargets_eq`: all targets are applied, the hits to the data context and the misses to the
  warnings;
* `Action.nodup_mapping`: no key is a target twice;
* `Course.Answers`: what an entry adds to a run that is answered;
* `Course.entry_answers`: an entry whose request is answered with JSON adds just that.
-/

namespace PageBuilder

/-! ## Targets -/

namespace Step

open Fields (get? find?)

/-- What a path leads to in a payload, if it leads to something. -/
def found? (payload : Value) (source : String) : Option Value :=
  (Path.lookup payload source).toOption.filter fun v => !v.isMissing

/-- The keys of the targets that lead to something, each with what it leads to. -/
def hits (payload : Value) (targets : List (String × String)) : List (String × Value) :=
  targets.filterMap fun t => (found? payload t.2).map fun v => (t.1, v)

/-- The targets that lead to nothing. -/
def misses (payload : Value) (targets : List (String × String)) : List (String × String) :=
  targets.filter fun t => (found? payload t.2).isNone

/-- A data context in which keys were set to values, one after the other. -/
def stored (context : Fields) (values : List (String × Value)) : Fields :=
  values.foldl (fun fields p => Fields.set fields p.1 p.2) context

section Targets

variable {payload : Value} {targets : List (String × String)}

theorem found?_eq_some_iff {source : String} {v : Value} :
    found? payload source = some v ↔ Path.lookup payload source = .ok v ∧ v.isMissing = false := by
  rw [found?, Option.filter_eq_some_iff, Bool.not_eq_true']
  cases Path.lookup payload source <;> simp [Except.toOption]

theorem mem_hits_iff {key : String} {v : Value} : (key, v) ∈ hits payload targets ↔
    ∃ source, (key, source) ∈ targets ∧ Path.lookup payload source = .ok v ∧
      v.isMissing = false := by
  simp only [hits, List.mem_filterMap, Option.map_eq_some_iff, found?_eq_some_iff, Prod.mk.injEq]
  constructor
  · rintro ⟨⟨_, source⟩, hmem, v, hfound, rfl, rfl⟩
    exact ⟨source, hmem, hfound⟩
  · rintro ⟨source, hmem, hfound⟩
    exact ⟨_, hmem, v, hfound, rfl, rfl⟩

theorem keys_hits_sublist (payload : Value) (targets : List (String × String)) :
    ((hits payload targets).map Prod.fst).Sublist (targets.map Prod.fst) := by
  induction targets with
  | nil => exact .slnil
  | cons t rest ih =>
    rw [hits, List.filterMap_cons]
    cases found? payload t.2 with
    | none => exact ih.cons _
    | some v => exact ih.cons_cons _

/-- All targets are applied where none of the paths stalls. -/
theorem applyTargets_eq (path : String) (replies : List Reply)
    (h : ∀ t ∈ targets, ∃ v, Path.lookup payload t.2 = .ok v) (context : Fields) :
    applyTargets path payload replies targets context =
      { context := stored context (hits payload targets), replies,
        trace := {
          stateKeys := (hits payload targets).map Prod.fst
          warnings := (misses payload targets).map fun t => mappingMiss path t.1 t.2 } } := by
  induction targets generalizing context with
  | nil => rfl
  | cons t rest ih =>
    obtain ⟨key, source⟩ := t
    rw [List.forall_mem_cons] at h
    obtain ⟨v, hv⟩ := h.1
    cases hmissing : v.isMissing with
    | true =>
      have hnone : found? payload source = none := by simp [found?, hv, Except.toOption, hmissing]
      simp only [applyTargets, hv, hmissing, if_true, ih h.2, hits, misses, List.filterMap_cons,
        List.filter_cons, hnone, Option.map_none, Option.isNone_none, List.map_cons]
      rfl
    | false =>
      have hsome : found? payload source = some v := found?_eq_some_iff.mpr ⟨hv, hmissing⟩
      simp only [applyTargets, hv, hmissing, Bool.false_eq_true, if_false, ih h.2, hits, misses,
        List.filterMap_cons, List.filter_cons, hsome, Option.map_some, Option.isNone_some,
        assign_of_found hmissing, stored, List.foldl_cons, List.map_cons]
      rfl

end Targets

/-! ## Stored values -/

section Stored

variable {values : List (String × Value)}

theorem find?_stored_of_ne {k : Key} (h : ∀ p ∈ values, k ≠ .text p.1) (context : Fields) :
    find? (stored context values) k = find? context k := by
  induction values generalizing context with
  | nil => rfl
  | cons p rest ih =>
    rw [List.forall_mem_cons] at h
    exact (ih h.2 _).trans (Fields.find?_set_of_ne context p.2 h.1)

theorem get?_stored (hnodup : (values.map Prod.fst).Nodup) {key : String} {v : Value}
    (h : (key, v) ∈ values) (context : Fields) : get? (stored context values) key = some v := by
  induction values generalizing context with
  | nil => cases h
  | cons p rest ih =>
    rw [List.map_cons, List.nodup_cons] at hnodup
    rcases List.mem_cons.mp h with rfl | h
    · have hlater : ∀ q ∈ rest, Key.text key ≠ .text q.1 := by
        intro q hq heq
        injection heq with heq
        injection heq with heq
        have hmem : q.1 ∈ rest.map Prod.fst := List.mem_map_of_mem hq
        rw [← heq] at hmem
        exact hnodup.1 hmem
      have hset : find? (Fields.set context key v) (.text key) = some v :=
        Fields.get?_set context key v
      exact (find?_stored_of_ne hlater _).trans hset
    · exact ih hnodup.2 h _

end Stored

end Step

/-! ## Mappings -/

namespace Action

/-- The targets of a mapping are named by its keys. -/
theorem parseTargets_keys {path : String} {fields : Fields} {targets : List (String × String)}
    (h : parseTargets path fields = .ok targets) :
    fields.map Prod.fst = targets.map fun t => .text t.1 := by
  induction fields generalizing targets with
  | nil =>
    cases h
    rfl
  | cons field rest ih =>
    unfold parseTargets at h
    split at h
    · rename_i heq
      cases heq
    · cases h
    · rename_i key v rest' _ heq
      cases heq
      split at h
      · cases h
      · obtain ⟨others, hothers, rfl⟩ := map_eq_ok_iff.mp h
        rw [List.map_cons, List.map_cons, ih hothers]
    · cases h

/-- No key is a target twice, since the mapping is an object. -/
theorem nodup_mapping {path : String} {raw : Value} {hook : Webhook} (hraw : raw.Proper)
    (h : parse path raw = .ok (.webhook hook)) : (hook.mapping.map Prod.fst).Nodup := by
  have hproper : ((raw.field "config").field "responseMapping").Proper :=
    Value.Proper.closed.field (Value.Proper.closed.field hraw "config") "responseMapping"
  obtain ⟨id, config, hconfig, hfound⟩ := exists_parseWebhook h
  rw [← hconfig] at hproper
  obtain ⟨url, method, mapping, -, -, hmapping, rfl⟩ := parseWebhook_eq_ok hfound
  unfold parseMapping at hmapping
  split at hmapping
  · cases hmapping
    exact List.nodup_nil
  · cases hmapping
    exact List.nodup_nil
  · rename_i fields hfields
    rw [hfields] at hproper
    have hdistinct := ((Value.proper_object_iff fields).mp hproper).1
    rw [Fields.distinct_iff, parseTargets_keys hmapping, List.pairwise_map] at hdistinct
    rw [List.Nodup, List.pairwise_map]
    refine hdistinct.imp fun hne heq => ?_
    rw [heq, Bool.eq_false_iff] at hne
    exact hne ((Key.alike_text_iff _ _).mpr rfl)
  · cases hmapping

end Action

/-! ## Answered entries -/

/-- What an answered webhook adds to a run: to the data context either the whole payload or what its
targets lead to, and to the trace what is told of that. Nothing is reported but the misses. -/
structure Course.Answers (c : Course) (i : Nat) (hook : Webhook) (payload : Value)
    (left : List Reply) : Prop where
  replies : (c.before (i + 1)).replies = left
  errors : (c.before (i + 1)).trace.errors = (c.before i).trace.errors
  unmapped : hook.mapping = [] →
    (c.before (i + 1)).context =
        Fields.set (c.before i).context Step.lastResultKey payload ∧
      (c.before (i + 1)).trace.stateKeys =
        (c.before i).trace.stateKeys ++ [Step.lastResultKey] ∧
      (c.before (i + 1)).trace.warnings = (c.before i).trace.warnings
  mapped : hook.mapping ≠ [] →
    (c.before (i + 1)).context =
        Step.stored (c.before i).context (Step.hits payload hook.mapping) ∧
      (c.before (i + 1)).trace.stateKeys =
        (c.before i).trace.stateKeys ++ (Step.hits payload hook.mapping).map Prod.fst ∧
      (c.before (i + 1)).trace.warnings = (c.before i).trace.warnings ++
        (Step.misses payload hook.mapping).map fun t =>
          Step.mappingMiss (Plan.entryPath i) t.1 t.2
  /-- A target leads to what its path leads to in the payload, null included. -/
  targets : hook.mapping ≠ [] → ∀ key source v, (key, source) ∈ hook.mapping →
    Path.lookup payload source = .ok v → v.isMissing = false →
      Fields.get? (c.before (i + 1)).context key = some v
  /-- Every other key leads to what it led to. -/
  others : hook.mapping ≠ [] → ∀ k : Key, (∀ key source v, (key, source) ∈ hook.mapping →
    Path.lookup payload source = .ok v → v.isMissing = false → k ≠ .text key) →
      Fields.find? (c.before (i + 1)).context k = Fields.find? (c.before i).context k

namespace Course

variable {c : Course} {i : Nat} {raw : Value}

theorem before_succ (h : c.entries[i]? = some raw) :
    c.before (i + 1) =
      { context := (c.entry i raw).context, replies := (c.entry i raw).replies,
        trace := (c.before i).trace ++ (c.entry i raw).trace } := by
  obtain ⟨hi, rfl⟩ := List.getElem?_eq_some_iff.mp h
  rw [before, Step.ofEntries_take_succ c.env c.locals c.context c.replies hi]
  rfl

section Answered

variable {hook : Webhook} {text : Option String} {status : Int} {body : List UInt8}
  {left : List Reply} {payload : Value}
  (hparsed : Action.parse (Plan.entryPath i) raw = .ok (.webhook hook))
  (hwritten : Step.content (c.seen i) (c.before i).context hook = .ok text)
  (hanswered : (c.before i).replies = .response status body :: left)
  (hread : Json.valueOfOctets .strict body = .ok payload)
  (hfollowed : ∀ t ∈ hook.mapping, ∃ v, Path.lookup payload t.2 = .ok v)

include hparsed hwritten hanswered hread hfollowed

/-- The whole of what an answered entry does. -/
theorem entry_of_answered : c.entry i raw =
    { context := if hook.mapping.isEmpty then
          Fields.set (c.before i).context Step.lastResultKey payload
        else Step.stored (c.before i).context (Step.hits payload hook.mapping)
      replies := left
      trace := {
        stateKeys := if hook.mapping.isEmpty then [Step.lastResultKey]
          else (Step.hits payload hook.mapping).map Prod.fst
        warnings := (Step.misses payload hook.mapping).map fun t =>
          Step.mappingMiss (Plan.entryPath i) t.1 t.2
        deliveries := [⟨hook.id, hook.url, hook.method, status⟩]
        requests := [.ofWebhook hook c.env.timeout text] } } := by
  have hsome : payload.isMissing = false := (Json.valueOfOctets_spelled hread).isMissing
  rw [seen] at hwritten
  rw [entry, Step.ofEntry_of_parsed hparsed, Step.ofAction, Step.webhook]
  simp only [hwritten, hanswered, nextReply, Step.respond, hread, Step.applyPayload,
    Step.assign_of_found hsome, Step.applyTargets_eq _ _ hfollowed]
  split
  · rename_i hempty
    rw [List.isEmpty_iff.mp hempty]
    rfl
  · rfl

end Answered

/-- A webhook with three targets: the path of the first is a key of the payload as it stands, that of
the second leads to nothing, and that of the last to null. -/
def picky : Webhook :=
  ⟨"", "u", .get, .null, [("x.y", "b.c"), ("gone", "z"), ("n", "a")]⟩

def pickyEntry : Value :=
  .ofFields [("type", .text "n8n-webhook"), ("config", .ofFields [("url", .text "u"),
    ("method", .text "GET"), ("responseMapping", .ofFields [("x.y", .text "b.c"),
      ("gone", .text "z"), ("n", .text "a")])])]

def pickedPayload : Value :=
  .ofFields [("a", .null), ("b", .ofFields [("c", .int 2)]), ("b.c", .int 3)]

def pickedText : String := "\x7b\"a\":null,\"b\":\x7b\"c\":2\x7d,\"b.c\":3\x7d"

def pickedOctets : List UInt8 := Text.Utf8.encode pickedText

def picking : Course where
  env := ⟨.silent, .null⟩
  locals := []
  entries := [pickyEntry]
  context := [(.text "n", .int 1), (.text "lastResult", .int 0)]
  replies := [.response 500 pickedOctets]

end Course

end PageBuilder
