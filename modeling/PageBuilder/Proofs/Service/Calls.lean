import PageBuilder.Proofs.Service.Edits

/-!
What the calls of the service do to the session.

* `Change`: the ways in which one call can change a session;
* `call_change`: every call changes the session in one of them;
* `Reached`: the sessions that requests lead to after a reset;
* `Reached.kept`: their trees are well-formed and workable, with properties at every node.
-/

namespace PageBuilder.Session

open PageBuilder.Tree (TreeStep Kept)
open Value (Storable Workable)

/-! ## Changes -/

/-- A session with a tree that was changed once at most, by workable values, and with the data of
before. -/
structure Edited (store : Store) (replies : List Reply) (t : Session) : Prop where
  root : TreeStep Workable store.root t.store.root
  context : t.store.context = store.context
  replies : t.replies = replies

/-- What one call can make of a session. -/
inductive Change (s : Session) : Session → Prop where
  | edit {t : Session} (edited : Edited s.store s.replies t) : Change s t
  | reset {context : Value} (given : context.Storable)
      (shape : context.isNull = true ∨ context.isObject = true) : Change s (s.reset context)
  | put {name : String} {value : Value} {store : Store} (given : value.Storable)
      (done : s.store.setContextValue (.text name) value = (.ok (), store)) :
      Change s (s.withStore store)
  | run {env : Surroundings} {actions locals : Value} {run : Run} (given : actions.Storable)
      (given_locals : locals.Storable)
      (ended : Run.actions env actions locals s.store.context s.replies = .ok run) :
      Change s
        { s with store := { s.store with context := run.context }, replies := run.replies }

theorem Change.same {s : Session} : Change s s := .edit ⟨.same, rfl, rfl⟩

theorem EditedBy.change {s t : Session} (h : EditedBy Workable s t) : Change s t :=
  .edit ⟨h.root, h.context, h.replies⟩

variable {s : Session} {body : List UInt8}

/-! ## Calls that have a part in the data context -/

theorem resetCall_change : Change s (s.resetCall body).session := by
  refine withBody_cases (P := fun o => Change s o.session) (fun _ _ _ _ _ => .same) fun v hv => ?_
  simp only
  split
  · rename_i hshape
    exact .reset (Storable.closed.field (readBody_storable hv) "context")
      (Bool.or_eq_true_iff.mp hshape)
  · exact .same

/-- The actions of a workable node for an event are storable. -/
theorem eventActions_storable {node actions : Value} {event : String}
    (h : Run.eventActions node (.text event) = .ok actions) (hnode : node.Workable) :
    actions.Storable := by
  unfold Run.eventActions at h
  split at h
  · rename_i events hevents
    cases h
    have hget : node.get? "events" = some (.object events) := by
      rw [Value.field_eq] at hevents
      cases hget : node.get? "events" with
      | none =>
        rw [hget] at hevents
        cases hevents
      | some w =>
        rw [hget] at hevents
        exact congrArg some hevents
    have hhold := hnode.events _ hget events rfl
    cases hfind : Fields.find? events (.text event) with
    | none => exact .atom rfl
    | some w => exact (hhold.2 _ (Fields.mem_of_get? hfind)).2
  · cases h
    exact .atom rfl

theorem runEventCall_change (hw : s.store.root.Workable) (id event : String) :
    Change s (s.runEventCall id event body).session := by
  refine withBody_cases (P := fun o => Change s o.session) (fun _ _ _ _ _ => .same) fun v hv => ?_
  refine withNode_cases (P := fun o => Change s o.session) (fun _ _ _ _ _ => .same)
    (fun _ _ => .same) fun node hnode => ?_
  simp only
  split
  · exact .same
  · rename_i run hrun
    obtain ⟨actions, hactions, hrun⟩ := bind_eq_ok_iff.mp hrun
    exact .run (eventActions_storable hactions (Tree.workable_of_find hw hnode))
      (Storable.closed.field (readBody_storable hv) "local_context") hrun

theorem putContextCall_change (key : String) : Change s (s.putContextCall key body).session := by
  refine withBody_cases (P := fun o => Change s o.session) (fun _ _ _ _ _ => .same) fun v hv => ?_
  split
  · exact .same
  · rename_i value hvalue
    have hgiven : value.Storable := (readBody_storable hv).get? hvalue
    split
    · rename_i store heq
      rw [Store.eq_of_setContextValue_error heq]
      exact .same
    · rename_i store heq
      exact .put hgiven heq

/-! ## All calls -/

/-- The event lists that are put into a node of a workable tree are workable. -/
theorem putsOnly_workable (hw : s.store.root.Workable) (id event : String) :
    PutsOnly Workable s id event := by
  intro node events actions hfound hlisted hactions
  have hhold := Events.ofNode_holdEvents hlisted (Tree.workable_of_find hw hfound)
  exact Events.workable_ofEvents (hhold.put _ (.list hactions))

/-- Every call changes the session in one of the ways there are. -/
theorem call_change (hw : s.store.root.Workable) (body : List UInt8) (c : Call) :
    Change s (s.call body c).session := by
  cases hc : c.onlyEdits with
  | true =>
    exact (call_editedBy (fun _ => Storable.workable) hw body hc fun id event _ =>
      putsOnly_workable hw id event).change
  | false =>
    cases c with
    | resetSession => exact resetCall_change
    | runEvent id event => exact runEventCall_change hw id event
    | putContext key => exact putContextCall_change key
    | _ => cases hc

/-! ## Requests -/

theorem serve_session (s : Session) (q : Inquiry) : (s.serve q).2 = (s.outcome q).session := by
  unfold serve
  simp only
  split <;> rfl

theorem serve_change (hw : s.store.root.Workable) (q : Inquiry) : Change s (s.serve q).2 := by
  rw [serve_session]
  unfold outcome
  split
  · exact .same
  · split
    · exact .same
    · exact call_change hw ..

/-- A change of the session changes the tree once at most, by workable values. -/
theorem Change.step {t : Session} (h : Change s t) :
    TreeStep Workable s.store.root t.store.root := by
  cases h with
  | edit hedited => exact hedited.root
  | reset _ _ => exact .reset
  | @put name value store _ hdone =>
    have hroot := s.store.setContextValue_root (.text name) value
    rw [hdone] at hroot
    show TreeStep Workable s.store.root store.root
    rw [hroot]
    exact .same
  | run _ _ _ => exact .same

/-- The sessions that requests lead to after a reset. -/
inductive Reached : Session → Prop where
  | reset (s : Session) (context : Value) : Reached (s.reset context)
  | serve {s : Session} (reached : Reached s) (q : Inquiry) : Reached (s.serve q).2

/-- After a reset all requests keep the tree well-formed and workable, with properties at every
node. -/
theorem Reached.kept (h : Reached s) : Kept s.store.root := by
  induction h with
  | reset s context => exact .initialRoot
  | serve _ q ih => exact (serve_change ih.workable q).step.kept ih

end PageBuilder.Session
