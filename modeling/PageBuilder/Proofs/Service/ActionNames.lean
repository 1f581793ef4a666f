import PageBuilder.Proofs.Service.ActionEdits
import PageBuilder.Proofs.Service.Draws

/-!
Identifiers of the actions that are added.

* `exists_later_draw`: of two actions that are added in the course of a session the second one has
  the identifier of a later draw;
* `addAction_alone_iff`: an action that was added is addressed alone just if no other one in its
  list has the identifier that was drawn;
* `addAction_not_alone`: an identifier that was given by hand can be drawn, and both actions are
  deleted.
-/

namespace PageBuilder

/-- Where no action has the identifier only the last one is configured. -/
theorem Events.Reconfigured.last {actionId : String} {news : Fields} {items made : List Value}
    {a : Value} (h : List.Forall₂ (Reconfigured actionId news) (items ++ [a]) made)
    (hfree : ∀ b ∈ items, b.field "id" ≠ .text actionId) :
    ∃ last, made = items ++ [last] ∧ Reconfigured actionId news a last := by
  induction items generalizing made with
  | nil =>
    obtain ⟨last, rest, hlast, hrest, rfl⟩ := List.forall₂_cons_left_iff.mp h
    cases hrest
    exact ⟨last, rfl, hlast⟩
  | cons b items ih =>
    rw [List.forall_mem_cons] at hfree
    obtain ⟨first, rest, hfirst, hrest, rfl⟩ := List.forall₂_cons_left_iff.mp h
    obtain ⟨last, rfl, hlast⟩ := ih hrest hfree.2
    cases hfirst with
    | configured hnamed _ => exact absurd hnamed hfree.1
    | other _ => exact ⟨last, rfl, hlast⟩

namespace Session

variable {s : Session} {id event : String} {v : Tree.Visit} {events : Fields} {items : List Value}

theorem Reached.proper (hr : Reached s) : s.store.root.Proper := hr.kept.plain.proper

/-! ## Actions that are added -/

/-- Actions that are put into a node do not change what the next draw is. -/
theorem newId_afterDraw (made : List Value) :
    (s.withActions v events event made).afterDraw.newId = s.source.actionId (s.drawn + 2) := rfl

section Added

variable {q : Inquiry} {body : Value} {kind : ActionKind}
  (hq : Call.ofRequest? q.method q.path = some (.addAction id event))
  (hbody : readBody q.body = .ok body) (hkind : ActionKind.ofValue? (body.field "type") = some kind)
  (h : s.Finds id event v events items)

include hq hbody hkind h

/-- Whatever is requested after an action was added, the next one has the identifier of a later
draw. -/
theorem exists_later_draw (queries : List Inquiry) : ∃ number, s.drawn + 1 < number ∧
    ((s.serve q).2.after queries).newId = s.source.actionId number := by
  have honward := (s.serve q).2.after_onward queries
  rw [serve_addAction hq hbody hkind h] at honward ⊢
  refine ⟨_, Nat.lt_succ_of_le honward.drawn, ?_⟩
  rw [newId, honward.source]
  rfl

/-- What is deleted with the new identifier is the new action just if no other one has it. -/
theorem deleteAction_new_iff {q' : Inquiry}
    (hq' : Call.ofRequest? q'.method q'.path = some (.deleteAction id event s.newId)) :
    ((s.serve q).2.serve q').2 = (s.withActions v events event items).afterDraw ↔
      ∀ a ∈ items, a.field "id" ≠ .text s.newId := by
  rw [serve_addAction_deleteAction hq hbody hkind h hq', filter_newAction,
    ← Events.filter_eq_self_iff]
  exact ⟨withActions_inj h, fun hkept => by rw [hkept]⟩

/-- What is configured with the new identifier is the new action, if no other one has it. -/
theorem patchAction_new (hproper : s.store.root.Proper)
    (hfree : ∀ a ∈ items, a.field "id" ≠ .text s.newId) {q' : Inquiry} {news : Fields}
    (hq' : Call.ofRequest? q'.method q'.path = some (.patchAction id event s.newId))
    (hbody' : readBody q'.body = .ok (.object news)) :
    ∃ made, Events.Reconfigured s.newId news (s.newAction kind) made ∧
      ((s.serve q).2.serve q').2 = (s.withActions v events event (items ++ [made])).afterDraw := by
  have hnews := ((Value.storable_object_iff news).mp (readBody_storable hbody')).1
  have hnew : (s.newAction kind).Proper :=
    (Events.newAction_storable s.source (s.drawn + 1) kind).plain.proper
  have hopens : ∀ a ∈ items ++ [s.newAction kind], a.field "id" = .text s.newId →
      ∃ config, (a.field "config").Opens config :=
    List.forall_mem_append.mpr ⟨fun a ha hid => absurd hid (hfree a ha),
      List.forall_mem_singleton.mpr fun _ => ⟨kind.defaultConfig, .inl rfl⟩⟩
  obtain ⟨made, hmade, hall⟩ := Events.reconfigure_of_opens hnews (List.forall_mem_append.mpr
    ⟨(proper_of_finds hproper h).2.2, List.forall_mem_singleton.mpr hnew⟩) hopens
  obtain ⟨last, rfl, hlast⟩ := Events.Reconfigured.last hall hfree
  have hany : (items ++ [s.newAction kind]).any (Events.isAction s.newId) = true :=
    List.any_eq_true.mpr ⟨s.newAction kind, List.mem_append_right _ (List.mem_singleton_self _),
      Events.isAction_iff.mpr rfl⟩
  exact ⟨last, hlast, serve_addAction_patchAction hq hbody hkind h hq' hbody' hany hmade⟩

end Added

/-- An action that is added to a list comes last, with what was drawn for an identifier. To delete
it by this identifier leaves the list that was there just if no other action has it; to configure it
then leaves the others alone. An action that is added later has the identifier of a later draw. -/
theorem addAction_alone_iff (hr : Reached s) (h : s.Finds id event v events items) {q : Inquiry}
    {body : Value} {kind : ActionKind}
    (hq : Call.ofRequest? q.method q.path = some (.addAction id event))
    (hbody : readBody q.body = .ok body)
    (hkind : ActionKind.ofValue? (body.field "type") = some kind) :
    (s.serve q).2 = (s.withActions v events event (items ++ [s.newAction kind])).afterDraw ∧
    (∀ q' : Inquiry, Call.ofRequest? q'.method q'.path = some (.deleteAction id event s.newId) →
      (((s.serve q).2.serve q').2 = (s.withActions v events event items).afterDraw ↔
        ∀ a ∈ items, a.field "id" ≠ .text s.newId)) ∧
    ((∀ a ∈ items, a.field "id" ≠ .text s.newId) → ∀ (q' : Inquiry) news,
      Call.ofRequest? q'.method q'.path = some (.patchAction id event s.newId) →
      readBody q'.body = .ok (.object news) →
      ∃ made, Events.Reconfigured s.newId news (s.newAction kind) made ∧
        ((s.serve q).2.serve q').2 =
          (s.withActions v events event (items ++ [made])).afterDraw) ∧
    ∀ queries, ∃ number, s.drawn + 1 < number ∧
      ((s.serve q).2.after queries).newId = s.source.actionId number :=
  ⟨serve_addAction hq hbody hkind h, fun _ => deleteAction_new_iff hq hbody hkind h,
    fun hfree _ _ => patchAction_new hq hbody hkind h hr.proper hfree,
    exists_later_draw hq hbody hkind h⟩

/-! ## An identifier that was given by hand -/

/-- An action with the text of the first draw. -/
def namesake : Value := .ofFields [("id", .text "1")]

def namesakeText : String := "\x7b\"events\":\x7b\"onClick\":[\x7b\"id\":\"1\"\x7d]\x7d\x7d"

/-- The request that puts this action into the page. -/
def plant : Inquiry := ⟨"PATCH", "/nodes/root", Text.Utf8.encode namesakeText, none⟩

/-- The request to delete the second alert that was added. -/
def deleteSecond : Inquiry := ⟨"DELETE", "/nodes/root/events/onClick/actions/2", [], none⟩

theorem serve_plant :
    (begun.serve plant).2 = begunWith (.object [(.text "onClick", .list [namesake])]) := by
  have hcall : Call.ofRequest? "PATCH" "/nodes/root" = some (.patchNode "root") := by decide
  have hwritten : Json.write .compact 0
      (.ofFields [("events", .ofFields [("onClick", .list [namesake])])]) =
        .ok namesakeText.toList := by decide +kernel
  have hread : readBody plant.body =
      .ok (.ofFields [("events", .ofFields [("onClick", .list [namesake])])]) :=
    readBody_of_write (by simp [namesake, Atom.offence?]) hwritten (by decide +kernel)
  exact serve_patchNode (q := plant) hcall hread
    (Tree.update_putField (Tree.locate_root rfl rfl) (by decide) _)

theorem newId_plant : (begun.serve plant).2.newId = "1" := by
  rw [serve_plant]
  rfl

theorem finds_plant : ∃ v events,
    (begun.serve plant).2.Finds "root" "onClick" v events [namesake] := by
  rw [serve_plant]
  exact ⟨_, _, finds_begunWith rfl⟩

/-- A new session draws the numerals, which are all different. -/
theorem draw_begun_injective : Function.Injective begun.source.draw := by
  intro m n heq
  have hdigits : Nat.toDigits 10 m = Nat.toDigits 10 n := by
    have hlist := congrArg String.toList heq
    rwa [show begun.source.draw m = m.repr from rfl, show begun.source.draw n = n.repr from rfl,
      Nat.toList_repr, Nat.toList_repr] at hlist
  rw [← Nat.ofDigitChars_toDigits (n := m) (b := 10) (by decide) (by decide), hdigits,
    Nat.ofDigitChars_toDigits (by decide) (by decide)]

/-- After an alert was added the next one is drawn anew, so that it is addressed alone. -/
theorem addAction_alone_second :
    Reached ((begun.serve plant).2.serve addAlert).2 ∧
      ((begun.serve plant).2.serve addAlert).2.newId = "2" ∧
      ∃ v events items,
        ((begun.serve plant).2.serve addAlert).2.Finds "root" "onClick" v events items ∧
        items = [namesake, (begun.serve plant).2.newAction .alert] ∧
        ((((begun.serve plant).2.serve addAlert).2.serve addAlert).2.serve deleteSecond).2 =
          (((begun.serve plant).2.serve addAlert).2.withActions v events "onClick"
            items).afterDraw := by
  obtain ⟨v, events, h⟩ := finds_plant
  have hreached : Reached ((begun.serve plant).2.serve addAlert).2 :=
    .serve (.serve (.reset ..) plant) addAlert
  obtain ⟨w, -, -, hw⟩ := finds_withActions h [namesake, (begun.serve plant).2.newAction .alert]
  have hfinds := hw.afterDraw
  have hserved := serve_addAction call_addAlert readBody_addAlert kind_addAlert h
  rw [List.singleton_append] at hserved
  rw [← hserved] at hfinds
  have hid : ((begun.serve plant).2.serve addAlert).2.newId = "2" := by
    rw [hserved, newId_afterDraw, serve_plant]
    rfl
  have hiff := (addAction_alone_iff hreached hfinds call_addAlert readBody_addAlert
    kind_addAlert).2.1 deleteSecond (by rw [hid]; decide)
  refine ⟨hreached, hid, w, _, _, hfinds, rfl, hiff.mpr ?_⟩
  rw [hid]
  refine List.forall_mem_cons.mpr ⟨?_, List.forall_mem_singleton.mpr ?_⟩
  · show Value.text "1" ≠ .text "2"
    simp
  · show Value.text (begun.serve plant).2.newId ≠ .text "2"
    rw [newId_plant]
    simp

/-- No identifier is drawn twice, and yet the action that is added has the one of an action that is
there. They are deleted together. -/
theorem addAction_not_alone :
    Function.Injective begun.source.draw ∧ Reached (begun.serve plant).2 ∧
      namesake.field "id" = .text (begun.serve plant).2.newId ∧
      ∃ v events, (begun.serve plant).2.Finds "root" "onClick" v events [namesake] ∧
        (((begun.serve plant).2.serve addAlert).2.serve deleteAlert).2 =
          ((begun.serve plant).2.withActions v events "onClick" []).afterDraw := by
  obtain ⟨v, events, h⟩ := finds_plant
  have hid : namesake.field "id" = .text (begun.serve plant).2.newId := by
    rw [newId_plant]
    rfl
  refine ⟨draw_begun_injective, .serve (.reset ..) plant, hid, v, events, h, ?_⟩
  rw [serve_addAction_deleteAction call_addAlert readBody_addAlert kind_addAlert h
    call_deleteAlert, ← newId_plant, filter_newAction]
  have hgone : ([namesake].filter fun a => !Events.isAction (begun.serve plant).2.newId a) = [] := by
    rw [newId_plant]
    rfl
  rw [hgone]

end Session

end PageBuilder
