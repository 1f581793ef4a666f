import PageBuilder.Proofs.Action.Planned
import PageBuilder.Proofs.Action.Requests

/-!
What is told of a run: issues and notices whose values are storable, if all is that the run works
on.

* `Trace.Told`: issues and notices of storable values;
* `Step.ofEntry_told`, `Step.ofEntries_told`: what an entry and a list of entries tell.
-/

namespace PageBuilder

open Value (Storable)

/-- All values that are told are storable. -/
structure Trace.Told (t : Trace) : Prop where
  details : ∀ i ∈ t.issues, i.detail.Storable
  messages : ∀ n ∈ t.notices, n.message.Storable

theorem Trace.Told.append {s t : Trace} (hs : s.Told) (ht : t.Told) : (s ++ t).Told where
  details i hi := (mem_issues_append.mp hi).elim (hs.details i) (ht.details i)
  messages := List.forall_mem_append.mpr ⟨hs.messages, ht.messages⟩

/-- What is missing is written as null, what is storable as it is. -/
theorem storable_jsonable {v : Value} (h : v = .missing ∨ v.Storable) : v.jsonable.Storable := by
  rcases h with rfl | h
  · exact .atom rfl
  · rwa [h.spelled.jsonable_eq]

namespace Step

section Told

variable {env : Surroundings} {locals context : Fields} {index : Nat} {replies : List Reply}

theorem ofAction_messages {path : String} {merged : Value} {action : Action}
    (hmerged : merged.Storable) (haction : action.value.Storable) :
    ∀ n ∈ (ofAction env path merged context replies action).trace.notices, n.message.Storable := by
  have hevaluate {v : Value} (hv : Template.evaluate merged action.value = .ok v) :
      v.jsonable.Storable :=
    storable_jsonable (Template.evaluate_closed Storable.closed hmerged haction hv)
  cases action with
  | consoleLog id message =>
    simp only [ofAction, log]
    split
    · exact List.forall_mem_nil _
    · rename_i v hv
      exact List.forall_mem_singleton.mpr (hevaluate hv)
  | alert id message =>
    simp only [ofAction, alert]
    split
    · exact List.forall_mem_nil _
    · rename_i v hv
      split
      · exact List.forall_mem_singleton.mpr (hevaluate hv)
      · split
        · exact List.forall_mem_nil _
        · exact List.forall_mem_singleton.mpr (hevaluate hv)
  | setState id key value =>
    simp only [ofAction, setState]
    split <;> exact List.forall_mem_nil _
  | webhook hook =>
    rw [ofAction, webhook_notices]
    exact List.forall_mem_nil _

theorem detailOf_storable {raw : Value} (h : raw.Storable) : (detailOf raw).Storable := by
  simp [detailOf, Storable.closed.field h "id"]

theorem mappingMiss_storable (path key source : String) :
    (mappingMiss path key source).detail.Storable := by
  simp [mappingMiss, Atom.offence?]

variable (hcontext : (Value.object context).Storable) (hlocals : (Value.object locals).Storable)

include hcontext hlocals

/-- An entry tells of its identifier, of what it has evaluated, and of paths. -/
theorem ofEntry_told {raw : Value} (hraw : raw.Storable) :
    (ofEntry env locals index raw context replies).trace.Told := by
  cases hparse : Action.parse (Plan.entryPath index) raw with
  | error r =>
    rw [ofEntry_of_refused hparse]
    exact ⟨List.forall_mem_singleton.mpr (detailOf_storable hraw), List.forall_mem_nil _⟩
  | ok action =>
    rw [ofEntry_of_parsed hparse]
    let merged := Value.object (Fields.merge context locals)
    let path := Plan.entryPath index
    have htold : (ofAction env path merged context replies action).trace.Told := by
      have hmisses := onlyMisses_ofAction env path merged context replies action
      refine ⟨fun i hi => ?_, ofAction_messages (Storable.closed.merge hcontext hlocals)
        (Action.parse_value Storable.closed hraw hparse)⟩
      rw [Trace.issues, hmisses.errors, List.nil_append] at hi
      obtain ⟨key, source, rfl⟩ := hmisses.warnings i hi
      exact mappingMiss_storable ..
    unfold reported
    split
    · exact htold
    · refine htold.append ⟨?_, List.forall_mem_nil _⟩
      exact List.forall_mem_singleton.mpr (detailOf_storable hraw)

/-- A list of actions tells of storable values. -/
theorem ofEntries_told {raws : List Value} (hraws : ∀ raw ∈ raws, raw.Storable)
    (hreplies : ∀ reply ∈ replies, reply.Of Storable) :
    (ofEntries env locals index raws context replies).trace.Told := by
  induction raws generalizing index context replies with
  | nil => exact ⟨List.forall_mem_nil _, List.forall_mem_nil _⟩
  | cons raw rest ih =>
    obtain ⟨hraw, hrest⟩ := List.forall_mem_cons.mp hraws
    have hkeeps := ofEntry_keeps Storable.closed hcontext hreplies env hlocals index hraw
    rw [ofEntries]
    exact (ofEntry_told hcontext hlocals hraw).append (ih hkeeps.context hrest hkeeps.replies)

end Told

end Step

end PageBuilder
