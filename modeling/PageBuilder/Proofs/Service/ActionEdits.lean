import PageBuilder.Proofs.Service.ActionRemoval

/-!
Actions that are added, configured and deleted, and what is left alone by that.

* `Reconfigured`: an action before and after fields were put into its configuration;
* `Relisted`: a session before and after the actions of one node for one event were replaced;
* `action_edits_relist`: each of the three calls replaces these actions, by the right ones, and
  nothing else; a deletion undoes what was added, if its identifier is new in the list.
-/

namespace PageBuilder

open PageBuilder.Tree (nodes Updated WellFormed)

variable {v : Value} {fields news config : Fields} {actionId : String}

/-- An object, or null for one without fields. -/
def Value.Opens (v : Value) (fields : Fields) : Prop :=
  v = .object fields ∨ v = .null ∧ fields = []

/-- A list, or null for the empty one. -/
def Value.Runs (v : Value) (items : List Value) : Prop :=
  v = .list items ∨ v = .null ∧ items = []

/-! ## Actions -/

namespace Events

/-- An action before and after fields were put into the configuration of all with an identifier. -/
inductive Reconfigured (actionId : String) (news : Fields) : Value → Value → Prop where
  | configured {fields config : Fields} (named : Fields.field fields "id" = .text actionId)
      (opens : (Fields.field fields "config").Opens config) :
      Reconfigured actionId news (.object fields) (.object
        (Fields.renewed fields [(.text "config", .object (Fields.renewed config news))]))
  | other {v : Value} (named : v.field "id" ≠ .text actionId) : Reconfigured actionId news v v

theorem ofNode_of_opens {n : Value} {events : Fields} (h : (n.field "events").Opens events) :
    ofNode n = .ok events := by
  obtain h | ⟨h, rfl⟩ := h
  · exact ofNode_object h
  · exact ofNode_null h

theorem actions_of_runs {events : Fields} {event : String} {items : List Value}
    (h : (Fields.field events event).Runs items) : actions events event = .ok items := by
  obtain h | ⟨h, rfl⟩ := h
  · exact actions_of_items? (by rw [h]; rfl)
  · exact actions_null h

section Proper

variable (hnews : Fields.Distinct news)

include hnews

theorem reconfigured_of_opens (hproper : (Value.object fields).Proper)
    (hopens : (Fields.field fields "config").Opens config) :
    reconfigured news fields = .ok (.object
      (Fields.renewed fields [(.text "config", .object (Fields.renewed config news))])) := by
  have hfields := ((Value.proper_object_iff fields).mp hproper).1
  have hconfig : Fields.Distinct config := by
    obtain hopens | ⟨-, rfl⟩ := hopens
    · have hfield : (Value.object config).Proper :=
        hopens ▸ Value.Proper.closed.field hproper "config"
      exact ((Value.proper_object_iff config).mp hfield).1
    · exact .nil
  rw [← Fields.merge_eq hconfig hnews,
    ← Fields.merge_eq hfields (List.pairwise_singleton ..)]
  obtain hopens | ⟨hopens, rfl⟩ := hopens
  · unfold reconfigured
    rw [hopens]
    cases config <;> rfl
  · unfold reconfigured
    rw [hopens]
    rfl

/-- Where all actions with the identifier have a configuration, each action is dealt with. -/
theorem reconfigure_of_opens {items : List Value} (hproper : ∀ a ∈ items, a.Proper)
    (hopens : ∀ a ∈ items, a.field "id" = .text actionId →
      ∃ config, (a.field "config").Opens config) :
    ∃ made, reconfigure actionId news items = .ok made ∧
      List.Forall₂ (Reconfigured actionId news) items made := by
  induction items with
  | nil => exact ⟨[], rfl, .nil⟩
  | cons a rest ih =>
    rw [List.forall_mem_cons] at hproper hopens
    obtain ⟨made, hmade, hall⟩ := ih hproper.2 hopens.2
    unfold reconfigure
    by_cases hid : a.field "id" = .text actionId
    · obtain ⟨config, hconfig⟩ := hopens.1 hid
      have hobject : a.isObject = true := (Bool.and_eq_true_iff.mp (isAction_iff.mpr hid)).1
      obtain ⟨fields, rfl⟩ := (Value.isObject_iff a).mp hobject
      have hfirst := reconfigured_of_opens hnews hproper.1 hconfig
      rw [if_pos (isAction_iff.mpr hid), hmade]
      exact ⟨_ :: made, by simp only [Value.fields?, Option.getD_some, hfirst]; rfl,
        .cons (.configured hid hconfig) hall⟩
    · rw [if_neg (mt isAction_iff.mp hid), hmade]
      exact ⟨a :: made, rfl, .cons (.other hid) hall⟩

end Proper

end Events

/-! ## Sessions -/

namespace Session

variable {s : Session} {n : Value} {x event : String} {events : Fields} {items made : List Value}

/-- A session before and after the actions of a node for an event were replaced. -/
structure Relisted (s : Session) (n : Value) (event : String) (made : List Value) (t : Session) :
    Prop where
  tree : ∃ old events, n = .object old ∧ (n.field "events").Opens events ∧
    Updated s.store.root n (.object (Fields.renewed old [(.text "events",
      .object (Fields.renewed events [(.text event, .list made)]))])) t.store.root
  wellFormed : WellFormed t.store.root
  store : t.store = s.store.withRoot t.store.root
  others : t = { s with store := t.store, drawn := t.drawn }

/-- The selection and the context are part of what is left alone. -/
theorem Relisted.selected_eq {t : Session} (h : s.Relisted n event made t) :
    t.store.selected = s.store.selected ∧ t.store.context = s.store.context := by
  rw [h.store]
  exact ⟨rfl, rfl⟩

/-- A draw is no replacement of anything. -/
theorem Relisted.afterDraw {t : Session} (h : s.Relisted n event made t) :
    s.Relisted n event made t.afterDraw where
  tree := h.tree
  wellFormed := h.wellFormed
  store := h.store
  others := congrArg Session.afterDraw h.others

section Page

variable (h : WellFormed s.store.root) (hproper : s.store.root.Proper)
  (hn : n ∈ nodes s.store.root) (hx : n.field "id" = .text x)
  (hevents : (n.field "events").Opens events) (hitems : (Fields.field events event).Runs items)

include h hn hx hevents

include hitems in
theorem exists_finds : ∃ v : Tree.Visit, v.node = n ∧ s.Finds x event v events items := by
  obtain ⟨v, hv, rfl⟩ := h.locate_eq_some hn hx
  exact ⟨v, rfl, hv, Events.ofNode_of_opens hevents, Events.actions_of_runs hitems⟩

include hproper

/-- What is put in the place of the actions replaces them, and nothing else. -/
theorem relisted_withActions {v : Tree.Visit} (hfinds : s.Finds x event v events items)
    (hv : v.node = n) (made : List Value) :
    s.Relisted n event made (s.withActions v events event made) := by
  obtain ⟨old, hold⟩ := (Value.isObject_iff n).mp (hv ▸ hfinds.isObject)
  obtain ⟨hnode, hheld, -⟩ := proper_of_finds hproper hfinds
  rw [hv, hold] at hnode
  have hlisted : relisted events event made =
      .object (Fields.renewed events [(.text event, .list made)]) := by
    rw [← Fields.merge_eq ((Value.proper_object_iff _).mp hheld).1 (List.pairwise_singleton ..)]
    rfl
  have hput : Tree.putFields [(.text "events", relisted events event made)] n =
      .object (Fields.renewed old [(.text "events",
        .object (Fields.renewed events [(.text event, .list made)]))]) := by
    rw [← hlisted, hold,
      ← Fields.merge_eq ((Value.proper_object_iff _).mp hnode).1 (List.pairwise_singleton ..)]
    rfl
  have htakes : Tree.Takes n [(.text "events", relisted events event made)] := by
    constructor <;> simp
  -- the update that is made is the only one there is
  obtain ⟨root', hupdate, hroot', hupdated⟩ := h.update_eq_some hn hx htakes
  rw [Tree.update_putField hfinds.located (by decide)] at hupdate
  cases hupdate
  rw [hput] at hupdated
  exact ⟨⟨old, events, hold, hevents, hupdated⟩, hroot', rfl, rfl⟩

include hitems

/-- A known action that is added comes last. It is told in the answer, and undone by a deletion if
no other action has its identifier. -/
theorem addAction_relists {q : Inquiry} {body : Value} {kind : ActionKind}
    (hq : Call.ofRequest? q.method q.path = some (.addAction x event))
    (hbody : readBody q.body = .ok body)
    (hkind : ActionKind.ofValue? (body.field "type") = some kind) :
    s.Relisted n event (items ++ [s.newAction kind]) (s.serve q).2 ∧
      (∀ digest, (s.serve q).2.store.digest = .ok digest → (s.outcome q).answer =
        .ok [("action", s.newAction kind), ("applied", .bool true), ("tree_hash", .text digest),
          ("selected_id", s.store.selected)] []) ∧
      ((∀ a ∈ items, a.field "id" ≠ .text s.newId) → ∀ q' : Inquiry,
        Call.ofRequest? q'.method q'.path = some (.deleteAction x event s.newId) →
        s.Relisted n event items ((s.serve q).2.serve q').2) := by
  obtain ⟨v, hv, hfinds⟩ := exists_finds h hn hx hevents hitems
  have hserve := serve_addAction hq hbody hkind hfinds
  refine ⟨?_, fun digest hdigest => ?_, fun hnew q' hq' => ?_⟩
  · rw [hserve]
    exact (relisted_withActions h hproper hn hx hevents hfinds hv _).afterDraw
  · rw [hserve] at hdigest
    rw [outcome_addAction hq hbody hkind hfinds]
    unfold answerTree
    simp only [hdigest]
    rfl
  · rw [serve_addAction_deleteAction hq hbody hkind hfinds hq', filter_newAction,
      Events.filter_eq_self_iff.mpr hnew]
    exact (relisted_withActions h hproper hn hx hevents hfinds hv _).afterDraw

/-- The configurations of the actions with an identifier that is there take the body's fields. -/
theorem patchAction_relists {q : Inquiry} {actionId : String} {news : Fields}
    (hq : Call.ofRequest? q.method q.path = some (.patchAction x event actionId))
    (hbody : readBody q.body = .ok (.object news))
    (hthere : ∃ a ∈ items, a.field "id" = .text actionId)
    (hopens : ∀ a ∈ items, a.field "id" = .text actionId →
      ∃ config, (a.field "config").Opens config) :
    ∃ made, List.Forall₂ (Events.Reconfigured actionId news) items made ∧
      s.Relisted n event made (s.serve q).2 := by
  obtain ⟨v, hv, hfinds⟩ := exists_finds h hn hx hevents hitems
  have hnews := ((Value.storable_object_iff news).mp (readBody_storable hbody)).1
  obtain ⟨made, hmade, hall⟩ :=
    Events.reconfigure_of_opens hnews (proper_of_finds hproper hfinds).2.2 hopens
  have hany : items.any (Events.isAction actionId) = true := by
    obtain ⟨a, ha, hid⟩ := hthere
    exact List.any_eq_true.mpr ⟨a, ha, Events.isAction_iff.mpr hid⟩
  refine ⟨made, hall, ?_⟩
  rw [serve_patchAction hq hbody hfinds hany hmade]
  exact relisted_withActions h hproper hn hx hevents hfinds hv made

/-- The actions that are deleted are those with the identifier; the others keep their order. -/
theorem deleteAction_relists {q : Inquiry} {actionId : String}
    (hq : Call.ofRequest? q.method q.path = some (.deleteAction x event actionId)) :
    s.Relisted n event (items.filter fun a => !(a.field "id").isTextOf actionId)
      (s.serve q).2 := by
  obtain ⟨v, hv, hfinds⟩ := exists_finds h hn hx hevents hitems
  have hsame : (items.filter fun a => !(a.field "id").isTextOf actionId) =
      items.filter fun a => !Events.isAction actionId a := by
    refine List.filter_congr fun a _ => congrArg _ ?_
    rw [Bool.eq_iff_iff, Value.isTextOf_iff, Events.isAction_iff]
  rw [serve_deleteAction hq hfinds, hsame]
  exact relisted_withActions h hproper hn hx hevents hfinds hv _

end Page

/-- Actions of a node that are added, configured or deleted are replaced by what was to be made of
them: the new action comes last, the configurations with the identifier take the fields of the body,
the actions with the identifier go. Nothing else is changed. A deletion undoes what was added, if no
other action had its identifier. -/
theorem action_edits_relist (h : WellFormed s.store.root) (hproper : s.store.root.Proper)
    (hn : n ∈ nodes s.store.root) (hx : n.field "id" = .text x)
    (hevents : (n.field "events").Opens events) (hitems : (Fields.field events event).Runs items) :
    (∀ (q : Inquiry) body kind, Call.ofRequest? q.method q.path = some (.addAction x event) →
      readBody q.body = .ok body → ActionKind.ofValue? (body.field "type") = some kind →
      s.Relisted n event (items ++ [s.newAction kind]) (s.serve q).2 ∧
        (∀ digest, (s.serve q).2.store.digest = .ok digest → (s.outcome q).answer =
          .ok [("action", s.newAction kind), ("applied", .bool true), ("tree_hash", .text digest),
            ("selected_id", s.store.selected)] []) ∧
        ((∀ a ∈ items, a.field "id" ≠ .text s.newId) → ∀ q' : Inquiry,
          Call.ofRequest? q'.method q'.path = some (.deleteAction x event s.newId) →
          s.Relisted n event items ((s.serve q).2.serve q').2)) ∧
    (∀ (q : Inquiry) actionId news,
      Call.ofRequest? q.method q.path = some (.patchAction x event actionId) →
      readBody q.body = .ok (.object news) → (∃ a ∈ items, a.field "id" = .text actionId) →
      (∀ a ∈ items, a.field "id" = .text actionId → ∃ config, (a.field "config").Opens config) →
      ∃ made, List.Forall₂ (Events.Reconfigured actionId news) items made ∧
        s.Relisted n event made (s.serve q).2) ∧
    ∀ (q : Inquiry) actionId,
      Call.ofRequest? q.method q.path = some (.deleteAction x event actionId) →
      s.Relisted n event (items.filter fun a => !(a.field "id").isTextOf actionId)
        (s.serve q).2 :=
  ⟨fun _ _ _ => addAction_relists h hproper hn hx hevents hitems,
    fun _ _ _ => patchAction_relists h hproper hn hx hevents hitems,
    fun _ _ => deleteAction_relists h hproper hn hx hevents hitems⟩

/-! ## A page with a list that is not all actions -/

def greeting : Value :=
  .ofFields [("id", .text "a"), ("type", .text "alert"),
    ("config", .ofFields [("message", .text "Hi")])]

def greetingEvents : Fields :=
  [(.text "onClick", .list [greeting, .text "a"]), (.text "onHover", .list [])]

def greetingPage : Value := Tree.putField "events" (.object greetingEvents) Store.initialRoot

/-- A new session whose page has the greeting, and a text that is no action. -/
def greeted : Session := begunWith (.object greetingEvents)

/-- The request to add an alert to the list. -/
def addAlert : Inquiry :=
  ⟨"POST", "/nodes/root/events/onClick/actions", Text.Utf8.encode "\x7b\"type\":\"alert\"\x7d",
    none⟩

/-- The request to delete the alert that was added. -/
def deleteAlert : Inquiry := ⟨"DELETE", "/nodes/root/events/onClick/actions/1", [], none⟩

/-- The request for another message of the greeting. -/
def patchGreeting : Inquiry :=
  ⟨"PATCH", "/nodes/root/events/onClick/actions/a", Text.Utf8.encode "\x7b\"message\":\"Ho\"\x7d",
    none⟩

/-- The request to delete the greeting. -/
def deleteGreeting : Inquiry := ⟨"DELETE", "/nodes/root/events/onClick/actions/a", [], none⟩

theorem call_addAlert :
    Call.ofRequest? addAlert.method addAlert.path = some (.addAction "root" "onClick") := by decide

theorem call_deleteAlert : Call.ofRequest? deleteAlert.method deleteAlert.path =
    some (.deleteAction "root" "onClick" "1") := by decide

theorem kind_addAlert :
    ActionKind.ofValue? ((Value.ofFields [("type", .text "alert")]).field "type") = some .alert :=
  rfl

theorem readBody_addAlert : readBody addAlert.body = .ok (.ofFields [("type", .text "alert")]) := by
  have hwritten : Json.write .compact 0 (.ofFields [("type", .text "alert")]) =
      .ok "\x7b\"type\":\"alert\"\x7d".toList := by decide +kernel
  exact readBody_of_write (by simp [Atom.offence?]) hwritten (by decide +kernel)

theorem readBody_patchGreeting :
    readBody patchGreeting.body = .ok (.ofFields [("message", .text "Ho")]) := by
  have hwritten : Json.write .compact 0 (.ofFields [("message", .text "Ho")]) =
      .ok "\x7b\"message\":\"Ho\"\x7d".toList := by decide +kernel
  exact readBody_of_write (by simp [Atom.offence?]) hwritten (by decide +kernel)

theorem proper_greetingPage : greetingPage.Proper := by
  have hevents : (Value.object greetingEvents).Proper := by
    have hempty : (Value.object []).Proper := Value.plain_empty.proper
    show (Value.ofFields [("onClick", .list [greeting, .text "a"]), ("onHover", .list [])]).Proper
    simp [greeting]
  exact Value.Proper.closed.set Tree.Kept.initialRoot.plain.proper hevents "events"

theorem wellFormed_begunWith (events : Value) : WellFormed (begunWith events).store.root :=
  WellFormed.initialRoot.update
    (Tree.update_putField (Tree.locate_root rfl rfl) (by decide) events)

/-- An alert is added after the text that is no action, and deleted again. The text is never taken
for the greeting with the same identifier. -/
theorem action_edits_relist_greeting :
    WellFormed greeted.store.root ∧ greetingPage.Proper ∧
      greetingPage ∈ nodes greeted.store.root ∧
      greetingPage.field "id" = .text "root" ∧
      (greetingPage.field "events").Opens greetingEvents ∧
      (Fields.field greetingEvents "onClick").Runs [greeting, .text "a"] ∧
      greeted.Relisted greetingPage "onClick"
        [greeting, .text "a", .ofFields [("id", .text "1"), ("type", .text "alert"),
          ("config", .object ActionKind.alert.defaultConfig)]]
        (greeted.serve addAlert).2 ∧
      greeted.Relisted greetingPage "onClick" [greeting, .text "a"]
        ((greeted.serve addAlert).2.serve deleteAlert).2 ∧
      (∃ made, List.Forall₂ (Events.Reconfigured "a" [(.text "message", .text "Ho")])
          [greeting, .text "a"] made ∧
        greeted.Relisted greetingPage "onClick" made
          (greeted.serve patchGreeting).2) ∧
      greeted.Relisted greetingPage "onClick" [.text "a"]
        (greeted.serve deleteGreeting).2 := by
  have hmem : greetingPage ∈ nodes greetingPage := Tree.self_mem_nodes _
  have hopens : (greetingPage.field "events").Opens greetingEvents := .inl rfl
  have hruns : (Fields.field greetingEvents "onClick").Runs [greeting, .text "a"] := .inl rfl
  obtain ⟨hadd, hpatch, hdelete⟩ := action_edits_relist (s := greeted) (wellFormed_begunWith _)
    proper_greetingPage hmem rfl hopens hruns
  obtain ⟨hadded, -, hundone⟩ :=
    hadd addAlert _ .alert call_addAlert readBody_addAlert kind_addAlert
  refine ⟨wellFormed_begunWith _, proper_greetingPage, hmem, rfl, hopens, hruns, hadded,
    hundone ?_ deleteAlert call_deleteAlert, ?_, hdelete deleteGreeting "a" (by decide)⟩
  · have hid : greeted.newId = "1" := by decide
    rw [hid]
    refine List.forall_mem_cons.mpr ⟨fun heq => ?_, List.forall_mem_singleton.mpr fun heq => ?_⟩
    · injection heq with heq
      injection heq with heq
      exact absurd heq (by decide)
    · cases heq
  · exact hpatch patchGreeting "a" _ (by decide) readBody_patchGreeting
      ⟨greeting, List.mem_cons_self .., rfl⟩ (List.forall_mem_cons.mpr
        ⟨fun _ => ⟨_, .inl rfl⟩, List.forall_mem_singleton.mpr fun heq => nomatch heq⟩)

end Session

end PageBuilder
