import PageBuilder.Proofs.Action.Append
import PageBuilder.Proofs.Path.Stalled

/-!
What an action that fails has done before it failed.

* `Step.ofEntry_unchanged_iff`: a failed entry leaves the data context alone and sets no key, but
  for a webhook that has taken over some values of its response and then meets a path that can not
  be followed;
* `Run.unchanged_of_reported_iff`: the same of the entries of a run, wherever they stand.
-/

namespace PageBuilder

/-! ## Targets of a response -/

namespace Step

/-- Some target that leads somewhere comes before the first one that can not be followed. -/
def HalfFollowed (payload : Value) (targets : List (String × String)) : Prop :=
  ∃ done target left, targets = done ++ target :: left ∧
    (∀ t ∈ done, ∃ v, Path.lookup payload t.2 = .ok v) ∧
    (∃ t ∈ done, ∃ v, Path.lookup payload t.2 = .ok v ∧ v.isMissing = false) ∧
    ∃ f, Path.lookup payload target.2 = .error f

/-- The first target that can not be followed. -/
theorem exists_error_of_failure {path : String} {payload : Value} {replies : List Reply}
    {targets : List (String × String)} {context : Fields}
    (h : (applyTargets path payload replies targets context).failure ≠ none) :
    ∃ done target left, targets = done ++ target :: left ∧
      (∀ t ∈ done, ∃ v, Path.lookup payload t.2 = .ok v) ∧
      ∃ f, Path.lookup payload target.2 = .error f := by
  induction targets generalizing context with
  | nil => exact absurd rfl h
  | cons target rest ih =>
    obtain ⟨key, source⟩ := target
    cases hlookup : Path.lookup payload source with
    | error f => exact ⟨[], (key, source), rest, rfl, List.forall_mem_nil _, f, hlookup⟩
    | ok v =>
      have hrest : ∃ context',
          (applyTargets path payload replies rest context').failure ≠ none := by
        simp only [applyTargets, hlookup] at h
        split at h
        · exact ⟨_, h⟩
        · exact ⟨_, h⟩
      obtain ⟨context', hrest⟩ := hrest
      obtain ⟨done, target, left, rfl, hdone, herror⟩ := ih hrest
      exact ⟨(key, source) :: done, target, left, rfl,
        List.forall_mem_cons.mpr ⟨⟨v, hlookup⟩, hdone⟩, herror⟩

theorem halfFollowed_cons_missing {payload : Value} {key source : String} {v : Value}
    {rest : List (String × String)} (hlookup : Path.lookup payload source = .ok v)
    (hv : v.isMissing = true) :
    HalfFollowed payload ((key, source) :: rest) ↔ HalfFollowed payload rest := by
  constructor
  · rintro ⟨done, target, left, heq, hdone, ⟨t, ht, w, hw, hmissing⟩, herror⟩
    cases done with
    | nil => cases ht
    | cons first done =>
      obtain ⟨rfl, rfl⟩ := List.cons.inj heq
      rw [List.forall_mem_cons] at hdone
      refine ⟨done, target, left, rfl, hdone.2, ?_, herror⟩
      rcases List.mem_cons.mp ht with rfl | ht
      · cases hlookup.symm.trans hw
        rw [hv] at hmissing
        cases hmissing
      · exact ⟨t, ht, w, hw, hmissing⟩
  · rintro ⟨done, target, left, rfl, hdone, ⟨t, ht, hit⟩, herror⟩
    exact ⟨(key, source) :: done, target, left, rfl,
      List.forall_mem_cons.mpr ⟨⟨v, hlookup⟩, hdone⟩, ⟨t, List.mem_cons_of_mem _ ht, hit⟩, herror⟩

/-- Targets that fail have set a key just if they were half followed. -/
theorem applyTargets_stateKeys_iff {path : String} {payload : Value} {replies : List Reply}
    {targets : List (String × String)} {context : Fields}
    (h : (applyTargets path payload replies targets context).failure ≠ none) :
    (applyTargets path payload replies targets context).trace.stateKeys = [] ↔
      ¬ HalfFollowed payload targets := by
  induction targets generalizing context with
  | nil => exact absurd rfl h
  | cons target rest ih =>
    obtain ⟨key, source⟩ := target
    cases hlookup : Path.lookup payload source with
    | error f =>
      simp only [applyTargets, hlookup]
      refine iff_of_true rfl ?_
      rintro ⟨done, target, left, heq, hdone, ⟨t, ht, -⟩, -⟩
      cases done with
      | nil => cases ht
      | cons first done =>
        obtain ⟨rfl, -⟩ := List.cons.inj heq
        obtain ⟨v, hv⟩ := hdone _ (List.mem_cons_self ..)
        cases hlookup.symm.trans hv
    | ok v =>
      cases hv : v.isMissing with
      | true =>
        rw [halfFollowed_cons_missing hlookup hv]
        simp only [applyTargets, hlookup, hv, if_true] at h ⊢
        exact ih h
      | false =>
        simp only [applyTargets, hlookup, hv, Bool.false_eq_true, if_false] at h ⊢
        refine iff_of_false (fun hnil => by cases hnil) fun hnot => hnot ?_
        obtain ⟨done, target, left, rfl, hdone, herror⟩ := exists_error_of_failure h
        exact ⟨(key, source) :: done, target, left, rfl,
          List.forall_mem_cons.mpr ⟨⟨v, hlookup⟩, hdone⟩,
          ⟨_, List.mem_cons_self .., v, hlookup, hv⟩, herror⟩

/-- Targets that set no key leave the data context alone. -/
theorem applyTargets_context {path : String} {payload : Value} {replies : List Reply}
    {targets : List (String × String)} {context : Fields}
    (h : (applyTargets path payload replies targets context).trace.stateKeys = []) :
    (applyTargets path payload replies targets context).context = context := by
  induction targets generalizing context with
  | nil => rfl
  | cons target rest ih =>
    obtain ⟨key, source⟩ := target
    unfold applyTargets at h ⊢
    split
    · rfl
    · rename_i v hlookup
      simp only [hlookup] at h
      split
      · rename_i hv
        rw [if_pos hv] at h
        exact ih h
      · rename_i hv
        rw [if_neg hv] at h
        cases h

/-! ## Reported steps -/

theorem reported_errors_ne {path : String} {detail : Value} {s : Step} (h : s.trace.errors = []) :
    (s.reported path detail).trace.errors ≠ [] ↔ s.failure ≠ none := by
  unfold reported
  cases hf : s.failure with
  | none => simp [h]
  | some f => simp

/-! ## Entries -/

/-- The step left the data context alone and set no key. -/
def Unchanged (context : Fields) (s : Step) : Prop :=
  s.context = context ∧ s.trace.stateKeys = []

/-- A response to a webhook came, and some of its values were taken over before a path could not be
followed. -/
def HalfAnswered (merged : Value) (context : Fields) (replies : List Reply) (hook : Webhook) :
    Prop :=
  ∃ text status body left payload, content merged context hook = .ok text ∧
    replies = .response status body :: left ∧ Json.valueOfOctets .strict body = .ok payload ∧
    HalfFollowed payload hook.mapping

theorem respond_unchanged_iff {path : String} {hook : Webhook} {status : Int} {body : List UInt8}
    {context : Fields} {replies : List Reply}
    (h : (respond path hook status body context replies).failure ≠ none) :
    Unchanged context (respond path hook status body context replies) ↔
      ¬ ∃ payload, Json.valueOfOctets .strict body = .ok payload ∧
        HalfFollowed payload hook.mapping := by
  cases hjson : Json.valueOfOctets .strict body with
  | error f =>
    simp only [respond, hjson]
    refine iff_of_true ⟨rfl, rfl⟩ ?_
    rintro ⟨payload, hpayload, -⟩
    cases hpayload
  | ok payload =>
    simp only [respond, hjson, applyPayload] at h ⊢
    split at h
    · exact absurd rfl h
    · rename_i hmapping
      simp only [if_neg hmapping, Unchanged, Trace.stateKeys_append, List.nil_append]
      have hkeys := applyTargets_stateKeys_iff h
      constructor
      · rintro ⟨-, hnil⟩ ⟨payload', hpayload, hhalf⟩
        cases hpayload
        exact hkeys.mp hnil hhalf
      · intro hnot
        have hnil := hkeys.mpr fun hhalf => hnot ⟨payload, rfl, hhalf⟩
        exact ⟨applyTargets_context hnil, hnil⟩

theorem webhook_unchanged_iff {timeout : Value} {path : String} {merged : Value}
    {context : Fields} {replies : List Reply} {hook : Webhook}
    (h : (webhook timeout path merged context replies hook).failure ≠ none) :
    Unchanged context (webhook timeout path merged context replies hook) ↔
      ¬ HalfAnswered merged context replies hook := by
  cases hcontent : content merged context hook with
  | error f =>
    simp only [webhook, hcontent]
    refine iff_of_true ⟨rfl, rfl⟩ ?_
    rintro ⟨text, _, _, _, _, htext, -⟩
    cases hcontent.symm.trans htext
  | ok text =>
    simp only [webhook, hcontent] at h ⊢
    cases replies with
    | nil =>
      refine iff_of_true ⟨rfl, rfl⟩ ?_
      rintro ⟨_, _, _, _, _, -, hreplies, -⟩
      cases hreplies
    | cons reply left =>
      cases reply with
      | failure kind message =>
        refine iff_of_true ⟨rfl, rfl⟩ ?_
        rintro ⟨_, _, _, _, _, -, hreplies, -⟩
        cases hreplies
      | response status body =>
        have hrespond := @respond_unchanged_iff path hook status body context left h
        simp only [Unchanged, nextReply, Trace.stateKeys_append, List.nil_append] at hrespond ⊢
        refine hrespond.trans (not_congr ?_)
        constructor
        · rintro ⟨payload, hpayload, hhalf⟩
          exact ⟨text, status, body, left, payload, hcontent, rfl, hpayload, hhalf⟩
        · rintro ⟨_, _, _, _, payload, -, hreplies, hpayload, hhalf⟩
          cases hreplies
          exact ⟨payload, hpayload, hhalf⟩

/-- An action that fails changes nothing, but for a webhook that was half answered. -/
theorem ofAction_unchanged_iff {env : Surroundings} {path : String} {merged : Value}
    {context : Fields} {replies : List Reply} {action : Action}
    (h : (ofAction env path merged context replies action).failure ≠ none) :
    Unchanged context (ofAction env path merged context replies action) ↔
      ¬ ∃ hook, action = .webhook hook ∧ HalfAnswered merged context replies hook := by
  cases action with
  | consoleLog id message =>
    refine iff_of_true ?_ fun ⟨_, heq, _⟩ => by cases heq
    show Unchanged context (log merged context replies id message)
    unfold log
    split <;> exact ⟨rfl, rfl⟩
  | alert id message =>
    refine iff_of_true ?_ fun ⟨_, heq, _⟩ => by cases heq
    show Unchanged context (alert env.notifier merged context replies id message)
    unfold alert
    split
    · exact ⟨rfl, rfl⟩
    · split
      · exact ⟨rfl, rfl⟩
      · split <;> exact ⟨rfl, rfl⟩
  | setState id key value =>
    refine iff_of_true ?_ fun ⟨_, heq, _⟩ => by cases heq
    -- Only an evaluation that fails keeps a state from being set.
    simp only [ofAction, setState] at h ⊢
    split at h
    · exact ⟨rfl, rfl⟩
    · exact absurd rfl h
  | webhook hook =>
    refine (webhook_unchanged_iff h).trans (not_congr ?_)
    constructor
    · exact fun hhalf => ⟨hook, rfl, hhalf⟩
    · rintro ⟨_, heq, hhalf⟩
      cases heq
      exact hhalf

/-- An entry that is a webhook which was half answered. -/
def HalfApplied (locals : Fields) (index : Nat) (raw : Value) (context : Fields)
    (replies : List Reply) : Prop :=
  ∃ hook, Action.parse (Plan.entryPath index) raw = .ok (.webhook hook) ∧
    HalfAnswered (.object (Fields.merge context locals)) context replies hook

/-- An entry that is reported as an error changes nothing, but for a webhook that was half
answered. -/
theorem ofEntry_unchanged_iff {env : Surroundings} {locals : Fields} {index : Nat} {raw : Value}
    {context : Fields} {replies : List Reply}
    (h : (ofEntry env locals index raw context replies).trace.errors ≠ []) :
    Unchanged context (ofEntry env locals index raw context replies) ↔
      ¬ HalfApplied locals index raw context replies := by
  cases hparse : Action.parse (Plan.entryPath index) raw with
  | error r =>
    simp only [ofEntry, hparse]
    refine iff_of_true ⟨rfl, rfl⟩ ?_
    rintro ⟨hook, hhook, -⟩
    cases hparse.symm.trans hhook
  | ok action =>
    simp only [ofEntry, hparse] at h ⊢
    rw [reported_errors_ne (onlyMisses_ofAction ..).errors] at h
    simp only [Unchanged, reported_context, reported_stateKeys]
    refine (ofAction_unchanged_iff h).trans (not_congr ?_)
    constructor
    · rintro ⟨hook, rfl, hhalf⟩
      exact ⟨hook, hparse, hhalf⟩
    · rintro ⟨hook, hhook, hhalf⟩
      cases hparse.symm.trans hhook
      exact ⟨hook, rfl, hhalf⟩

/-- A path of a webhook that was half answered has a step of digits that is no numeral. -/
theorem HalfApplied.spoiled {locals : Fields} {index : Nat} {raw : Value} {context : Fields}
    {replies : List Reply} (h : HalfApplied locals index raw context replies) :
    ∃ hook, Action.parse (Plan.entryPath index) raw = .ok (.webhook hook) ∧
      ∃ target ∈ hook.mapping, ∃ step ∈ Path.steps target.2, Path.Spoiled step := by
  obtain ⟨hook, hhook, _, _, _, _, payload, -, -, -, done, target, left, heq, -, -, f, herror⟩ := h
  refine ⟨hook, hhook, target, ?_, Path.step_of_lookup_error herror⟩
  rw [heq]
  exact List.mem_append_right _ (List.mem_cons_self ..)

end Step

/-! ## Runs -/

namespace Run

open Step (HalfApplied)

section Place

variable {env : Surroundings} {locals : Fields} {raws : List Value} {context : Fields}
  {replies : List Reply}

/-- An entry at whose path an error is told is one of the list. -/
theorem bounds_of_placed {index i : Nat} {issue : Issue} {below : String}
    (hmem : issue ∈ (Step.ofEntries env locals index raws context replies).trace.errors)
    (hpath : issue.path = some (Plan.entryPath i ++ below)) :
    index ≤ i ∧ i < index + raws.length := by
  obtain ⟨place, s, hle, hlt, hplace⟩ :=
    Step.ofEntries_placed env locals raws index context replies issue
      (List.mem_append_left _ hmem)
  rw [hpath, Option.some.injEq] at hplace
  obtain ⟨rfl, -⟩ := Plan.entryPath_append_inj hplace
  exact ⟨hle, hlt⟩

variable {i : Nat} (hi : i < raws.length)

include hi

/-- An issue that is told at the path of an entry comes from that entry. -/
theorem errors_ne_of_placed {issue : Issue} {below : String}
    (hmem : issue ∈ (Step.ofEntries env locals 0 raws context replies).trace.errors)
    (hpath : issue.path = some (Plan.entryPath i ++ below)) :
    let before := Step.ofEntries env locals 0 (raws.take i) context replies
    (Step.ofEntry env locals i raws[i] before.context before.replies).trace.errors ≠ [] := by
  intro before
  have hlength : (raws.take i).length = i := List.length_take_of_le (Nat.le_of_lt hi)
  have hsplit : raws = raws.take i ++ raws[i] :: raws.drop (i + 1) := by
    rw [← List.drop_eq_getElem_cons hi, List.take_append_drop]
  rw [hsplit, Step.ofEntries_append, hlength, Nat.zero_add] at hmem
  simp only [Step.ofEntries, Trace.errors_append, List.mem_append] at hmem
  rcases hmem with hmem | hmem | hmem
  · have := (bounds_of_placed hmem hpath).2
    omega
  · exact List.ne_nil_of_mem hmem
  · have := (bounds_of_placed hmem hpath).1
    omega

end Place

/-- Wherever an entry of a run is reported as an error, it leaves the data context alone and sets no
key, unless it is a webhook that was half answered; a path of its mapping has then a step of digits
that is no numeral. -/
theorem unchanged_of_reported_iff {env : Surroundings} {raws : List Value} {locals context : Fields}
    {replies : List Reply} {i : Nat} {raw : Value} (hraw : raws[i]? = some raw)
    {before after whole : Run}
    (hbefore : actions env (.list (raws.take i)) (.object locals) (.object context) replies =
      .ok before)
    (hafter : actions env (.list (raws.take (i + 1))) (.object locals) (.object context) replies =
      .ok after)
    (hwhole : actions env (.list raws) (.object locals) (.object context) replies = .ok whole)
    {issue : Issue} {below : String} (hmem : issue ∈ whole.trace.errors)
    (hpath : issue.path = some (Plan.entryPath i ++ below)) :
    ∃ fields, before.context = .object fields ∧
      ((after.context = before.context ∧ after.trace.stateKeys = before.trace.stateKeys) ↔
        ¬ HalfApplied locals i raw fields before.replies) ∧
      (HalfApplied locals i raw fields before.replies →
        ∃ hook, Action.parse (Plan.entryPath i) raw = .ok (.webhook hook) ∧
          ∃ target ∈ hook.mapping, ∃ step ∈ Path.steps target.2, Path.Spoiled step) := by
  obtain ⟨hi, rfl⟩ := List.getElem?_eq_some_iff.mp hraw
  rw [actions_list] at hbefore hafter hwhole
  cases hbefore
  cases hafter
  cases hwhole
  refine ⟨_, rfl, ?_, HalfApplied.spoiled⟩
  have herrors := errors_ne_of_placed hi hmem hpath
  refine Iff.trans ?_ (Step.ofEntry_unchanged_iff herrors)
  simp only [Step.ofEntries_take_succ env locals context replies hi, Trace.stateKeys_append,
    Value.object.injEq, Step.Unchanged, List.append_right_eq_self]

/-- A run in which nobody is told of alerts. -/
def quiet : Surroundings := ⟨.silent, .null⟩

/-- An action that sets a state, and something that is no action. -/
def settingAndNothing : List Value :=
  [.ofFields [("type", .text "setState"),
    ("config", .ofFields [("key", .text "a"), ("value", .int 1)])], .int 5]

theorem unchanged_settingAndNothing :
    ∃ before after whole : Run, ∃ issue : Issue,
      actions quiet (.list (settingAndNothing.take 1)) (.object []) (.object []) [] =
        .ok before ∧
      actions quiet (.list (settingAndNothing.take 2)) (.object []) (.object []) [] =
        .ok after ∧
      actions quiet (.list settingAndNothing) (.object []) (.object []) [] = .ok whole ∧
      issue ∈ whole.trace.errors ∧ issue.path = some (Plan.entryPath 1 ++ "") ∧
      before.trace.stateKeys = ["a"] ∧
      after.context = before.context ∧ after.trace.stateKeys = before.trace.stateKeys := by
  have hbefore := actions_list quiet (settingAndNothing.take 1) [] [] []
  have hafter := actions_list quiet (settingAndNothing.take 2) [] [] []
  have hwhole := actions_list quiet settingAndNothing [] [] []
  have hreported : some (Plan.entryPath 1 ++ "") ∈
      (Step.ofEntries quiet [] 0 settingAndNothing [] []).trace.errors.map (·.path) := by
    decide +kernel
  obtain ⟨issue, hmem, hpath⟩ := List.mem_map.mp hreported
  have hraw : settingAndNothing[1]? = some (.int 5) := rfl
  obtain ⟨fields, -, hiff, -⟩ :=
    unchanged_of_reported_iff hraw hbefore hafter hwhole hmem hpath
  have hnot : ¬ HalfApplied [] 1 (.int 5) fields
      (Step.ofEntries quiet [] 0 (settingAndNothing.take 1) [] []).replies := by
    rintro ⟨hook, hparse, -⟩
    cases hparse
  exact ⟨_, _, _, issue, hbefore, hafter, hwhole, hmem, hpath, by decide +kernel,
    hiff.mpr hnot⟩

/-- A webhook that takes two values of its response, the second one from a list, where the path to
it has a digit that makes no numeral. -/
def squaredHook : Value :=
  .ofFields [("type", .text "n8n-webhook"), ("config", .ofFields [("url", .text "u"),
    ("method", .text "GET"),
    ("responseMapping", .ofFields [("a", .text "x"), ("b", .text "items.²")])])]

def listedReply : Reply :=
  .response 200 (Text.Utf8.encode "\x7b\"x\": 1, \"items\": [1]\x7d")

/-- The webhook is reported as an error, but one of its values has been taken over. -/
theorem changed_squaredHook :
    ∃ before after whole : Run, ∃ issue : Issue,
      actions quiet (.list ([squaredHook].take 0)) (.object []) (.object []) [listedReply] =
        .ok before ∧
      actions quiet (.list ([squaredHook].take 1)) (.object []) (.object []) [listedReply] =
        .ok after ∧
      actions quiet (.list [squaredHook]) (.object []) (.object []) [listedReply] = .ok whole ∧
      issue ∈ whole.trace.errors ∧ issue.path = some (Plan.entryPath 0) ∧
      after.context ≠ before.context ∧ after.trace.stateKeys ≠ before.trace.stateKeys := by
  have hreported : some (Plan.entryPath 0) ∈
      (Step.ofEntries quiet [] 0 [squaredHook] [] [listedReply]).trace.errors.map (·.path) := by
    decide +kernel
  have hkeys :
      (Step.ofEntries quiet [] 0 [squaredHook] [] [listedReply]).trace.stateKeys = ["a"] := by
    decide +kernel
  have hcontext :
      (Step.ofEntries quiet [] 0 [squaredHook] [] [listedReply]).context.isEmpty = false := by
    decide +kernel
  obtain ⟨issue, hmem, hpath⟩ := List.mem_map.mp hreported
  refine ⟨_, _, _, issue, actions_list .., actions_list .., actions_list .., hmem, hpath, ?_, ?_⟩
  · intro h
    have hnil : (Step.ofEntries quiet [] 0 [squaredHook] [] [listedReply]).context = [] :=
      Value.object.inj h
    rw [hnil] at hcontext
    cases hcontext
  · intro h
    cases hkeys.symm.trans h

end Run

end PageBuilder
