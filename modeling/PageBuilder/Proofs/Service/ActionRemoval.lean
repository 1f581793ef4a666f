import PageBuilder.Proofs.Json.InPlace
import PageBuilder.Proofs.Service.ActionLists
import PageBuilder.Proofs.Service.Tree
import PageBuilder.Proofs.Store.Proper
import PageBuilder.Proofs.Store.Update

/-!
Actions that are deleted without being there.

* `Lacks`: no action of the node for the event has the identifier;
* `Holds`: the node has an object for its events and a value in it for the event;
* `serve_deleteAction_twice`: a deletion that is repeated changes nothing more;
* `deleteAction_unchanged_iff`: a deletion of what is not there leaves the tree and its digest just
  if a list of actions is held for the event;
* `digest_changed_begun`: a page without event lists gets others by such a deletion, and another
  digest.
-/

namespace PageBuilder.Session

open PageBuilder.Tree (Visit editAt putField)
open Value (SameJson)

variable {s : Session} {id event actionId : String} {v : Visit} {events : Fields}
  {items : List Value}

/-- No action of the node for the event has the identifier, as far as there is a list to be found.
-/
def Lacks (s : Session) (id event actionId : String) : Prop :=
  ∀ v events items, s.Finds id event v events items →
    ∀ a ∈ items, Events.isAction actionId a = false

/-- The node has an object for its events, and this has a value for the event. -/
def Holds (n : Value) (event : String) (w : Value) : Prop :=
  ∃ events, n.get? "events" = some (.object events) ∧ Fields.get? events event = some w

/-! ## What is found where a list is held -/

theorem Finds.eq_of_holds (h : s.Finds id event v events items) {w : Value}
    (hw : Holds v.node event w) {listed : List Value} (hlisted : w.items? = some listed) :
    items = listed ∧ v.node.get? "events" = some (.object events) ∧
      Fields.get? events event = some w := by
  obtain ⟨held, hheld, hget⟩ := hw
  have hevents : Events.ofNode v.node = .ok held :=
    Events.ofNode_object (by rw [Value.field_eq, hheld, Option.getD_some])
  obtain rfl : events = held := Except.ok.inj (h.listed.symm.trans hevents)
  have hactions : Events.actions events event = .ok listed :=
    Events.actions_of_items? (by rw [Fields.field, hget]; exact hlisted)
  exact ⟨Except.ok.inj (h.actions.symm.trans hactions), hheld, hget⟩

/-- What is put back is what was there just if it was a list. -/
theorem Finds.root_eq_iff (h : s.Finds id event v events items) :
    (s.withActions v events event items).store.root = s.store.root ↔
      ∃ listed, Holds v.node event (.list listed) := by
  refine (Tree.editAt_eq_self_iff (Tree.locate_eq h.located).1.node _).trans ?_
  rw [Tree.putField_eq_self_iff h.isObject]
  constructor
  · intro hget
    exact ⟨items, _, hget, Fields.get?_set ..⟩
  · rintro ⟨listed, hheld⟩
    obtain ⟨rfl, hget, hlist⟩ := h.eq_of_holds hheld rfl
    rw [hget, relisted, Fields.set_eq_self hlist]

section Proper

variable (hproper : s.store.root.Proper)

include hproper

theorem proper_of_finds (h : s.Finds id event v events items) :
    v.node.Proper ∧ (Value.object events).Proper ∧ ∀ a ∈ items, a.Proper := by
  have hnode : v.node.Proper :=
    Value.Proper.closed.nodes hproper _ (Tree.locate_eq h.located).1.mem_nodes
  have hempty : (Value.object []).Proper := .object .nil (List.forall_mem_nil _)
  have hevents : (Value.object events).Proper := by
    have hlisted := h.listed
    unfold Events.ofNode at hlisted
    simp only at hlisted
    split at hlisted
    · exact Store.fieldsOf_proper hlisted (Value.Proper.closed.field hnode "events")
    · cases hlisted
      exact hempty
  refine ⟨hnode, hevents, ?_⟩
  have hactions := h.actions
  unfold Events.actions at hactions
  simp only at hactions
  split at hactions
  · exact Store.itemsOf_proper hactions (Value.Proper.closed.field hevents event)
  · cases hactions
    exact List.forall_mem_nil _

theorem proper_withActions (h : s.Finds id event v events items) :
    (s.withActions v events event items).store.root.Proper := by
  obtain ⟨hnode, hevents, hitems⟩ := proper_of_finds hproper h
  obtain ⟨fields, hfields⟩ := (Value.isObject_iff v.node).mp h.isObject
  have hlist := (Value.proper_list_iff items).mpr hitems
  refine Tree.proper_editAt hproper (Tree.locate_eq h.located).1.node ?_
  rw [hfields] at hnode ⊢
  exact Value.Proper.closed.set hnode (Value.Proper.closed.set hevents hlist event) "events"

/-- What is put back stands for what was there just if that was a sequence. -/
theorem Finds.sameJson_iff (hj : s.store.root.offence? = none)
    (h : s.Finds id event v events items) :
    SameJson s.store.root (s.withActions v events event items).store.root ↔
      ∃ w listed, Holds v.node event w ∧ w.items? = some listed := by
  have hclosed := Value.Proper.closed.and Value.offence?_closed
  have hplaced := (Tree.locate_eq h.located).1
  have hnode := hclosed.nodes ⟨hproper, hj⟩ _ hplaced.mem_nodes
  refine (Tree.sameJson_editAt_iff hproper hj hplaced.node).trans ?_
  rw [Value.sameJson_putField_iff h.isObject hnode.1 hnode.2]
  constructor
  · rintro ⟨u, hget, hsame⟩
    obtain ⟨held, rfl⟩ := Value.sameJson_object hsame
    obtain ⟨hheld, hheldJson⟩ := hclosed.get? hnode hget
    have hlisted : Events.ofNode v.node = .ok held :=
      Events.ofNode_object (by rw [Value.field_eq, hget, Option.getD_some])
    obtain rfl : events = held := Except.ok.inj (h.listed.symm.trans hlisted)
    obtain ⟨w, hw, hsame⟩ := (Value.sameJson_set_iff hheld hheldJson event _).mp hsame
    cases hsame with
    | sequence hmembers _ => exact ⟨w, _, ⟨events, hget, hw⟩, hmembers⟩
  · rintro ⟨w, listed, hw, hlisted⟩
    obtain ⟨rfl, hget, hlist⟩ := h.eq_of_holds hw hlisted
    have hheld := hclosed.get? hnode hget
    have hself := hclosed.fields hheld _ (Fields.mem_of_get? hlist)
    refine ⟨_, hget, (Value.sameJson_set_iff hheld.1 hheld.2 event _).mpr ⟨w, hlist, ?_⟩⟩
    exact Value.sameJson_list hlisted hself.1 hself.2

end Proper

/-! ## Deletions -/

section Deletion

variable {q : Inquiry}
  (hq : Call.ofRequest? q.method q.path = some (.deleteAction id event actionId))

include hq

/-- A deletion that is repeated changes nothing more. -/
theorem serve_deleteAction_twice {q' : Inquiry}
    (hq' : Call.ofRequest? q'.method q'.path = some (.deleteAction id event actionId)) :
    ((s.serve q).2.serve q').2 = (s.serve q).2 := by
  by_cases hfinds : ∃ v events items, s.Finds id event v events items
  · obtain ⟨v, events, items, h⟩ := hfinds
    rw [serve_deleteAction hq h]
    obtain ⟨w, haddress, -, hw⟩ :=
      finds_withActions h (items.filter fun a => !Events.isAction actionId a)
    rw [serve_deleteAction hq' hw, List.filter_filter, withActions_withActions haddress]
    simp only [Bool.and_self]
  · simp only [not_exists] at hfinds
    rw [serve_deleteAction_of_not_finds hq hfinds, serve_deleteAction_of_not_finds hq' hfinds]

/-- What is found is put back, if no action of it is to be deleted. -/
theorem serve_deleteAction_of_lacks (hlacks : s.Lacks id event actionId)
    (h : s.Finds id event v events items) :
    (s.serve q).2 = s.withActions v events event items := by
  rw [serve_deleteAction hq h, List.filter_eq_self.mpr]
  intro a ha
  rw [hlacks v events items h a ha]
  rfl

/-- A deletion of what is not there leaves the tree just if, should there be actions to be found, a
list of them is held for the event. It leaves the digest just if a sequence is held, or else the
texts of the trees collide. Whatever is deleted, the same deletion leaves everything a second time.
-/
theorem deleteAction_unchanged_iff :
    (s.Lacks id event actionId →
      ((s.serve q).2.store.root = s.store.root ↔ ∀ v events items,
        s.Finds id event v events items → ∃ listed, Holds v.node event (.list listed)) ∧
      ∀ digest, s.store.root.Proper → s.store.digest = .ok digest →
        ((s.serve q).2.store.digest = .ok digest ↔
          (∀ v events items, s.Finds id event v events items →
            ∃ w listed, Holds v.node event w ∧ w.items? = some listed) ∨
          Json.TextsCollide s.store.root (s.serve q).2.store.root)) ∧
    ∀ q' : Inquiry, Call.ofRequest? q'.method q'.path = some (.deleteAction id event actionId) →
      ((s.serve q).2.serve q').2 = (s.serve q).2 := by
  refine ⟨fun hlacks => ?_, fun q' => serve_deleteAction_twice hq⟩
  by_cases hfinds : ∃ v events items, s.Finds id event v events items
  · obtain ⟨v, events, items, h⟩ := hfinds
    rw [serve_deleteAction_of_lacks hq hlacks h]
    have hall {P : Value → Prop} :
        (∀ v events items, s.Finds id event v events items → P v.node) ↔ P v.node :=
      ⟨fun hP => hP v events items h, fun hP w _ _ hw => (h.unique hw).1 ▸ hP⟩
    refine ⟨h.root_eq_iff.trans (hall (P := fun n => ∃ listed, Holds n event (.list listed))).symm,
      fun digest hproper hdigest => ?_⟩
    rw [hall (P := fun n => ∃ w listed, Holds n event w ∧ w.items? = some listed),
      ← h.sameJson_iff hproper (Json.offence?_of_digest hdigest)]
    exact Json.digest_eq_iff hproper (proper_withActions hproper h) hdigest
  · simp only [not_exists] at hfinds
    rw [serve_deleteAction_of_not_finds hq hfinds]
    have hvacuous {P : Visit → Prop} : ∀ v events items, s.Finds id event v events items → P v :=
      fun v events items h => absurd h (hfinds v events items)
    exact ⟨iff_of_true rfl hvacuous, fun digest _ hdigest => iff_of_true hdigest (.inl hvacuous)⟩

end Deletion

/-! ## A page with and without event lists -/

/-- A new session whose page was given event lists. -/
def begunWith (events : Value) : Session :=
  begun.withStore (begun.store.withRoot (putField "events" events Store.initialRoot))

theorem finds_begunWith (h : (Fields.field events event).items? = some items) :
    (begunWith (.object events)).Finds "root" event
      (.start (begunWith (.object events)).store.root) events items where
  located := Tree.locate_root rfl rfl
  listed := Events.ofNode_object rfl
  actions := Events.actions_of_items? h

/-- A new session whose page has no actions for one event. -/
def emptyList : Session := begunWith (.ofFields [("e", .list [])])

theorem finds_emptyList : emptyList.Finds "root" "e" (.start emptyList.store.root)
    [(.text "e", .list [])] [] := finds_begunWith rfl

/-- Where there is an empty list, nothing is changed by deleting from it. -/
theorem deleteAction_unchanged_emptyList :
    Call.ofRequest? deleteNothing.method deleteNothing.path = some (.deleteAction "root" "e" "x") ∧
      emptyList.Lacks "root" "e" "x" ∧
      (emptyList.serve deleteNothing).2.store.root = emptyList.store.root ∧
      ((emptyList.serve deleteNothing).2.serve deleteNothing).2 =
        (emptyList.serve deleteNothing).2 := by
  have hcall : Call.ofRequest? "DELETE" "/nodes/root/events/e/actions/x" =
      some (.deleteAction "root" "e" "x") := by decide
  have hlacks : emptyList.Lacks "root" "e" "x" := by
    intro v events items h a ha
    rw [← (finds_emptyList.unique h).2.2] at ha
    cases ha
  obtain ⟨hleft, htwice⟩ := deleteAction_unchanged_iff (s := emptyList) (q := deleteNothing) hcall
  refine ⟨hcall, hlacks, (hleft hlacks).1.mpr fun v events items h => ?_, htwice _ hcall⟩
  rw [← (finds_emptyList.unique h).1]
  exact ⟨[], _, rfl, rfl⟩

theorem finds_begun : begun.Finds "root" "e" (.start begun.store.root) [] [] where
  located := Tree.locate_root rfl rfl
  listed := Events.ofNode_null rfl
  actions := Events.actions_null rfl

/-- The page of a new session with its names in order, and then with event lists. -/
def sortedRoot (events : List (String × Value)) : Value :=
  .ofFields ([("children", .list [])] ++ events ++ [("id", .text "root"),
    ("label", .text "Page Root"), ("props", .object []),
    ("style", .ofFields [("minHeight", .text "100%"), ("padding", .text "20px")]),
    ("type", .text "page")])

theorem digest_of_sorted {v w : Value} (hj : v.offence? = none) (hw : Json.sorted v = w) :
    Json.digest v = ((Json.text .compact w).mapError .unwritable).map Json.digestText := by
  rw [Json.digest, Json.canonicalText, hj, hw]

/-- The order of the names is computed, one comparison after the other. -/
theorem sorted_pages : Json.sorted Store.initialRoot = sortedRoot [] ∧
    Json.sorted emptyList.store.root = sortedRoot [("events", .ofFields [("e", .list [])])] := by
  have hroot : emptyList.store.root = .object (((Store.initialRoot.fields?).getD []) ++
      [(.text "events", .ofFields [("e", .list [])])]) := rfl
  rw [hroot]
  constructor <;>
  simp only [Store.initialRoot, Value.fields?, Option.getD_some, Value.ofFields,
    ComponentKind.name, sortedRoot, List.map_cons, List.map_nil, List.cons_append, List.nil_append,
    List.append_nil, Json.sorted, Json.sortedFields, Json.sortedItems, List.mergeSort,
    List.mergeSort_nil, List.mergeSort_singleton, List.MergeSort.Internal.splitInTwo_fst,
    List.MergeSort.Internal.splitInTwo_snd, List.length_cons, List.length_nil, Nat.reduceAdd,
    Nat.reduceDiv, List.take_succ_cons, List.take_zero, List.drop_succ_cons, List.drop_zero,
    List.cons_merge_cons_pos, List.cons_merge_cons_neg, List.merge_right, List.nil_merge,
    Json.nameOrder, String.reduceLT, decide_true, decide_false, Bool.not_true, Bool.not_false,
    Bool.false_eq_true, not_false_eq_true]

theorem digest_begun : begun.store.digest =
    .ok "sha256:a824ecd1cecc1edf0b1d80346525db2bfa299ed2100e20bdd5d4b4c5ef7b63fd" := by
  refine (digest_of_sorted (by decide) sorted_pages.1).trans ?_
  decide +kernel

theorem digest_emptyList : emptyList.store.digest =
    .ok "sha256:b1ad4a626403eeefad17a0b5315cbc623335367e8ace76dbfc9ccc25d16366a0" := by
  refine (digest_of_sorted (by decide) sorted_pages.2).trans ?_
  decide +kernel

/-- A page without event lists gets some by a deletion of what is not there, and another digest. -/
theorem digest_changed_begun :
    begun.Lacks "root" "e" "x" ∧ ∃ digest digest', begun.store.digest = .ok digest ∧
      (begun.serve deleteNothing).2.store.digest = .ok digest' ∧ digest' ≠ digest := by
  have hcall : Call.ofRequest? "DELETE" "/nodes/root/events/e/actions/x" =
      some (.deleteAction "root" "e" "x") := by decide
  have hlacks : begun.Lacks "root" "e" "x" := by
    intro v events items h a ha
    rw [← (finds_begun.unique h).2.2] at ha
    cases ha
  have hserve : (begun.serve deleteNothing).2 = emptyList :=
    serve_deleteAction_of_lacks (q := deleteNothing) hcall hlacks finds_begun
  rw [hserve]
  exact ⟨hlacks, _, _, digest_begun, digest_emptyList, by decide⟩

end PageBuilder.Session
