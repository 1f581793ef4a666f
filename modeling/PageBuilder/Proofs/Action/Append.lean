import PageBuilder.Proofs.Action.Place

/-!
Two lists of actions that are run one after the other do what the joined list does.

* `Step.ofEntry_later`: an entry does the same at every place, but for the paths of its issues;
* `Step.ofEntries_append`: a joined list is run part by part;
* `Step.ofEntries_placed`: issues are told at the paths of entries or below;
* `Run.actions_append`: what the run of a joined list ends with.
-/

namespace PageBuilder

/-! ## Traces -/

namespace Trace

/-- The trace with the paths of its issues moved. -/
def moved (g : String → String) (t : Trace) : Trace :=
  { t with errors := t.errors.map (·.moved g), warnings := t.warnings.map (·.moved g) }

section Append

variable (s t u : Trace)

@[simp] theorem errors_append : (s ++ t).errors = s.errors ++ t.errors := rfl
@[simp] theorem warnings_append : (s ++ t).warnings = s.warnings ++ t.warnings := rfl
@[simp] theorem notices_append : (s ++ t).notices = s.notices ++ t.notices := rfl
@[simp] theorem stateKeys_append : (s ++ t).stateKeys = s.stateKeys ++ t.stateKeys := rfl
@[simp] theorem deliveries_append : (s ++ t).deliveries = s.deliveries ++ t.deliveries := rfl
@[simp] theorem alerts_append : (s ++ t).alerts = s.alerts ++ t.alerts := rfl
@[simp] theorem requests_append : (s ++ t).requests = s.requests ++ t.requests := rfl

theorem append_assoc : s ++ t ++ u = s ++ (t ++ u) := by
  show append (append s t) u = append s (append t u)
  simp [append]

theorem empty_append : ({} : Trace) ++ t = t := by
  show append {} t = t
  simp [append]

theorem append_empty : t ++ ({} : Trace) = t := by
  show append t {} = t
  simp [append]

theorem append_errors (issues : List Issue) :
    t ++ { errors := issues } = { t with errors := t.errors ++ issues } := by
  show append t { errors := issues } = _
  simp [append]

@[simp] theorem moved_append (g : String → String) :
    (s ++ t).moved g = s.moved g ++ t.moved g := by
  show moved g (append s t) = append (moved g s) (moved g t)
  simp [moved, append]

@[simp] theorem ok_append : (s ++ t).ok = (s.ok && t.ok) := by
  rw [ok, errors_append, ok, ok]
  cases s.errors <;> rfl

@[simp] theorem ok_moved (g : String → String) : (t.moved g).ok = t.ok := by
  rw [ok, moved, List.isEmpty_map, ok]

end Append

/-- All that is reported. -/
def issues (t : Trace) : List Issue := t.errors ++ t.warnings

theorem mem_issues_append {s t : Trace} {i : Issue} :
    i ∈ (s ++ t).issues ↔ i ∈ s.issues ∨ i ∈ t.issues := by
  simp only [issues, errors_append, warnings_append, List.mem_append]
  exact or_or_or_comm

/-- All issues are told at a path or below it. -/
def Below (path : String) (t : Trace) : Prop :=
  ∀ i ∈ t.issues, ∃ s, i.path = some (path ++ s)

theorem Below.append {path : String} {s t : Trace} (hs : s.Below path) (ht : t.Below path) :
    (s ++ t).Below path :=
  fun i hi => (mem_issues_append.mp hi).elim (hs i) (ht i)

theorem moved_of_no_issues {t : Trace} (h : t.issues = []) (g : String → String) :
    t.moved g = t := by
  obtain ⟨errors, warnings, _, _, _, _, _⟩ := t
  obtain ⟨rfl, rfl⟩ := List.append_eq_nil_iff.mp h
  rfl

end Trace

namespace Step

def moved (g : String → String) (s : Step) : Step := { s with trace := s.trace.moved g }

theorem moved_of_no_issues {s : Step} (h : s.trace.issues = []) (g : String → String) :
    s.moved g = s := by
  rw [moved, Trace.moved_of_no_issues h]

/-! ## Single actions -/

/-- An action other than a webhook reports nothing: its failure is reported where it is seen. -/
theorem ofAction_issues {env : Surroundings} {path : String} {merged : Value} {context : Fields}
    {replies : List Reply} {action : Action} (h : ∀ hook, action ≠ .webhook hook) :
    (ofAction env path merged context replies action).trace.issues = [] := by
  cases action with
  | consoleLog id message =>
    simp only [ofAction, log]
    split <;> rfl
  | alert id message =>
    simp only [ofAction, alert]
    split
    · rfl
    · split
      · rfl
      · split <;> rfl
  | setState id key value =>
    simp only [ofAction, setState]
    split <;> rfl
  | webhook hook => exact absurd rfl (h hook)

section Actions

variable {g : String → String} {p q : String}

theorem mappingMiss_moved (h : Moves g p q) (key source : String) :
    mappingMiss q key source = (mappingMiss p key source).moved g := by
  simp [mappingMiss, Issue.moved, h ".config.responseMapping"]

theorem applyTargets_moved (h : Moves g p q) (payload : Value) (replies : List Reply)
    (targets : List (String × String)) (context : Fields) :
    applyTargets q payload replies targets context =
      (applyTargets p payload replies targets context).moved g := by
  induction targets generalizing context with
  | nil => rfl
  | cons target rest ih =>
    obtain ⟨key, source⟩ := target
    unfold applyTargets
    split
    · rfl
    · split
      · simp only [ih, moved, Trace.moved_append, mappingMiss_moved h]
        rfl
      · simp only [ih, moved, Trace.moved_append]
        rfl

theorem applyPayload_moved (h : Moves g p q) (hook : Webhook) (payload : Value) (context : Fields)
    (replies : List Reply) :
    applyPayload q hook payload context replies =
      (applyPayload p hook payload context replies).moved g := by
  unfold applyPayload
  split
  · rfl
  · exact applyTargets_moved h payload replies hook.mapping context

theorem respond_moved (h : Moves g p q) (hook : Webhook) (status : Int) (body : List UInt8)
    (context : Fields) (replies : List Reply) :
    respond q hook status body context replies =
      (respond p hook status body context replies).moved g := by
  unfold respond
  split
  · rfl
  · simp only [applyPayload_moved h, moved, Trace.moved_append]
    rfl

theorem webhook_moved (h : Moves g p q) (timeout merged : Value) (context : Fields)
    (replies : List Reply) (hook : Webhook) :
    webhook timeout q merged context replies hook =
      (webhook timeout p merged context replies hook).moved g := by
  unfold webhook
  split
  · rfl
  · simp only
    split
    · rfl
    · simp only [respond_moved h, moved, Trace.moved_append]
      rfl

theorem ofAction_moved (h : Moves g p q) (env : Surroundings) (merged : Value) (context : Fields)
    (replies : List Reply) (action : Action) :
    ofAction env q merged context replies action =
      (ofAction env p merged context replies action).moved g := by
  cases action with
  | webhook hook => exact webhook_moved h ..
  | _ =>
    -- The path makes a difference to webhooks only.
    exact (moved_of_no_issues (ofAction_issues fun hook heq => by cases heq) g).symm

theorem reported_moved (h : Moves g p q) (detail : Value) (s : Step) :
    (s.moved g).reported q detail = (s.reported p detail).moved g := by
  unfold reported
  cases hf : s.failure with
  | none => simp only [moved, hf]
  | some f =>
    simp only [moved, hf, Trace.moved_append]
    simp [Trace.moved, Issue.moved, h.self]

end Actions

/-! ## Lists of actions -/

/-- An entry does the same at a later place, but for the paths of its issues. -/
theorem ofEntry_later (env : Surroundings) (locals : Fields) (n index : Nat) (raw : Value)
    (context : Fields) (replies : List Reply) :
    ofEntry env locals (index + n) raw context replies =
      (ofEntry env locals index raw context replies).moved (Plan.laterPath n) := by
  have h := Plan.moves_laterPath n index
  unfold ofEntry
  simp only [Action.parse_moved h]
  cases Action.parse (Plan.entryPath index) raw with
  | error r => rfl
  | ok action =>
    simp only [mapError_ok, ofAction_moved h]
    exact reported_moved h ..

theorem ofEntries_later (env : Surroundings) (locals : Fields) (n : Nat) (raws : List Value)
    (index : Nat) (context : Fields) (replies : List Reply) :
    ofEntries env locals (index + n) raws context replies =
      (ofEntries env locals index raws context replies).moved (Plan.laterPath n) := by
  induction raws generalizing index context replies with
  | nil => rfl
  | cons raw rest ih =>
    unfold ofEntries
    simp only [ofEntry_later env locals n index]
    rw [Nat.add_right_comm, ih]
    simp [moved]

/-- A joined list is run part by part. -/
theorem ofEntries_append (env : Surroundings) (locals : Fields) (raws others : List Value)
    (index : Nat) (context : Fields) (replies : List Reply) :
    ofEntries env locals index (raws ++ others) context replies =
      let first := ofEntries env locals index raws context replies
      let second := ofEntries env locals (index + raws.length) others first.context first.replies
      { second with trace := first.trace ++ second.trace } := by
  induction raws generalizing index context replies with
  | nil => simp [ofEntries, Trace.empty_append]
  | cons raw rest ih =>
    rw [List.cons_append, ofEntries, ofEntries]
    simp only [ih, List.length_cons, Trace.append_assoc]
    rw [Nat.add_assoc, Nat.add_comm 1]

/-- What a list of actions does up to an entry, and then by that entry. -/
theorem ofEntries_take_succ (env : Surroundings) (locals context : Fields) (replies : List Reply)
    {raws : List Value} {i : Nat} (hi : i < raws.length) :
    ofEntries env locals 0 (raws.take (i + 1)) context replies =
      let before := ofEntries env locals 0 (raws.take i) context replies
      let step := ofEntry env locals i raws[i] before.context before.replies
      { context := step.context, replies := step.replies,
        trace := before.trace ++ step.trace } := by
  have hlength : (raws.take i).length = i := List.length_take_of_le (Nat.le_of_lt hi)
  rw [List.take_succ_eq_append_getElem hi, ofEntries_append, hlength, Nat.zero_add]
  simp [ofEntries, Trace.append_empty]

/-! ## Reported failures -/

section Reported

variable (path : String) (detail : Value) (s : Step)

@[simp] theorem reported_context : (s.reported path detail).context = s.context := by
  unfold reported
  split <;> rfl

@[simp] theorem reported_replies : (s.reported path detail).replies = s.replies := by
  unfold reported
  split <;> rfl

@[simp] theorem reported_stateKeys :
    (s.reported path detail).trace.stateKeys = s.trace.stateKeys := by
  unfold reported
  split
  · rfl
  · rw [Trace.stateKeys_append, List.append_nil]

@[simp] theorem reported_requests :
    (s.reported path detail).trace.requests = s.trace.requests := by
  unfold reported
  split
  · rfl
  · rw [Trace.requests_append, List.append_nil]

end Reported

/-! ## Paths of issues -/

/-- What an action reports itself: where its mapping misses something of a response. -/
structure OnlyMisses (path : String) (t : Trace) : Prop where
  errors : t.errors = []
  warnings : ∀ i ∈ t.warnings, ∃ key source, i = mappingMiss path key source

theorem OnlyMisses.of_no_issues {path : String} {t : Trace} (h : t.issues = []) :
    OnlyMisses path t := by
  obtain ⟨herrors, hwarnings⟩ := List.append_eq_nil_iff.mp h
  refine ⟨herrors, ?_⟩
  rw [hwarnings]
  exact List.forall_mem_nil _

theorem OnlyMisses.append {path : String} {s t : Trace} (hs : OnlyMisses path s)
    (ht : OnlyMisses path t) : OnlyMisses path (s ++ t) where
  errors := by rw [Trace.errors_append, hs.errors, ht.errors, List.append_nil]
  warnings := List.forall_mem_append.mpr ⟨hs.warnings, ht.warnings⟩

theorem OnlyMisses.below {path : String} {t : Trace} (h : OnlyMisses path t) : t.Below path := by
  intro i hi
  rw [Trace.issues, h.errors, List.nil_append] at hi
  obtain ⟨key, source, rfl⟩ := h.warnings i hi
  exact ⟨_, rfl⟩

theorem onlyMisses_applyTargets (path : String) (payload : Value) (replies : List Reply)
    (targets : List (String × String)) (context : Fields) :
    OnlyMisses path (applyTargets path payload replies targets context).trace := by
  induction targets generalizing context with
  | nil => exact .of_no_issues rfl
  | cons target rest ih =>
    obtain ⟨key, source⟩ := target
    unfold applyTargets
    split
    · exact .of_no_issues rfl
    · split
      · refine .append ⟨rfl, fun i hi => ?_⟩ (ih _)
        exact ⟨key, source, List.mem_singleton.mp hi⟩
      · exact .append (.of_no_issues rfl) (ih _)

theorem onlyMisses_webhook (timeout : Value) (path : String) (merged : Value) (context : Fields)
    (replies : List Reply) (hook : Webhook) :
    OnlyMisses path (webhook timeout path merged context replies hook).trace := by
  unfold webhook
  split
  · exact .of_no_issues rfl
  · refine .append (.of_no_issues rfl) ?_
    split
    · exact .of_no_issues rfl
    · unfold respond
      split
      · exact .of_no_issues rfl
      · refine .append (.of_no_issues rfl) ?_
        unfold applyPayload
        split
        · exact .of_no_issues rfl
        · exact onlyMisses_applyTargets ..

theorem onlyMisses_ofAction (env : Surroundings) (path : String) (merged : Value)
    (context : Fields) (replies : List Reply) (action : Action) :
    OnlyMisses path (ofAction env path merged context replies action).trace := by
  cases action with
  | webhook hook => exact onlyMisses_webhook ..
  | _ => exact .of_no_issues (ofAction_issues fun hook heq => by cases heq)

/-- The issues of an entry are told at its path or below. -/
theorem ofEntry_below (env : Surroundings) (locals : Fields) (index : Nat) (raw : Value)
    (context : Fields) (replies : List Reply) :
    (ofEntry env locals index raw context replies).trace.Below (Plan.entryPath index) := by
  unfold ofEntry
  simp only
  split
  · rename_i r hr
    intro i hi
    rw [List.mem_singleton.mp hi]
    obtain ⟨s, hs⟩ := Action.refusal_path hr
    exact ⟨s, congrArg some hs⟩
  · unfold reported
    split
    · exact (onlyMisses_ofAction ..).below
    · refine (onlyMisses_ofAction ..).below.append ?_
      intro i hi
      rw [List.mem_singleton.mp hi]
      exact ⟨"", by rw [String.append_empty]⟩

/-- The issues of a list of actions are told at the paths of its entries or below. -/
theorem ofEntries_placed (env : Surroundings) (locals : Fields) (raws : List Value) (index : Nat)
    (context : Fields) (replies : List Reply) :
    ∀ i ∈ (ofEntries env locals index raws context replies).trace.issues,
      ∃ place s, index ≤ place ∧ place < index + raws.length ∧
        i.path = some (Plan.entryPath place ++ s) := by
  induction raws generalizing index context replies with
  | nil => exact fun i hi => by cases hi
  | cons raw rest ih =>
    intro i hi
    rw [ofEntries] at hi
    rcases Trace.mem_issues_append.mp hi with hi | hi
    · obtain ⟨s, hs⟩ := ofEntry_below env locals index raw context replies i hi
      exact ⟨index, s, Nat.le_refl _, by simp, hs⟩
    · obtain ⟨place, s, hle, hlt, hs⟩ := ih _ _ _ i hi
      exact ⟨place, s, by omega, by rw [List.length_cons]; omega, hs⟩

end Step

/-! ## Runs -/

namespace Run

/-- A list of actions is run entry by entry, the empty one like others. -/
theorem actions_list (env : Surroundings) (raws : List Value) (locals context : Fields)
    (replies : List Reply) :
    actions env (.list raws) (.object locals) (.object context) replies =
      let s := Step.ofEntries env locals 0 raws context replies
      .ok ⟨.object s.context, s.replies, s.trace⟩ := by
  cases raws with
  | nil => rfl
  | cons raw rest => rfl

end Run

end PageBuilder
