import PageBuilder.Proofs.Document.Import
import PageBuilder.Proofs.Service.Context
import PageBuilder.Proofs.Service.Reload

/-!
What is in the tree of a session, after any requests.

* `call_step`: what every call does to the tree and to the selection;
* `TreeSound`: the tree is JSON-like, and calls that show it are answered;
* `serve_jsonLike_iff`: a request keeps the tree JSON-like just if it puts no event lists under
  names that are no texts;
* `treeSound_iff`: the sessions after a reset stay sound just as long as no request does that;
* `not_treeSound_paired`: a list of pairs in the place of event lists is enough to spoil a session.
-/

namespace PageBuilder

/-! ## Names of event lists -/

/-- Some field has a name that is no text. -/
def Fields.Misnamed (fields : Fields) : Prop := ∃ f ∈ fields, ∀ name, f.1 ≠ .text name

theorem Fields.not_misnamed_iff (fields : Fields) :
    ¬ fields.Misnamed ↔ ∀ f ∈ fields, ∃ name, f.1 = .text name := by
  simp [Misnamed]

/-- A name that was there is there after a change. -/
theorem Fields.exists_mem_put {fields : Fields} (k : Key) (v : Value) {f : Key × Value}
    (hf : f ∈ fields) : ∃ g ∈ put fields k v, g.1 = f.1 := by
  by_cases hmet : ∃ f ∈ fields, f.1.alike k = true
  · have hnames := map_fst_put v hmet
    have hmem : f.1 ∈ (put fields k v).map Prod.fst := hnames ▸ List.mem_map_of_mem hf
    exact List.mem_map.mp hmem
  · have hnew : ∀ f ∈ fields, f.1.alike k = false := by
      intro f hf
      rw [Bool.eq_false_iff]
      exact fun hk => hmet ⟨f, hf, hk⟩
    rw [put_of_new v hnew]
    exact ⟨f, List.mem_append_left _ hf, rfl⟩

theorem Fields.Misnamed.set {fields : Fields} (h : fields.Misnamed) (name : String) (v : Value) :
    (Fields.set fields name v).Misnamed := by
  obtain ⟨f, hf, hname⟩ := h
  obtain ⟨g, hg, heq⟩ := exists_mem_put (.text name) v hf
  exact ⟨g, hg, heq ▸ hname⟩

/-! ## Trees -/

namespace Tree

open Document (lasting_offence?)

/-- What is JSON-like stays so when the tree is changed by JSON-like values. -/
theorem TreeStep.jsonLike {root root' : Value}
    (h : TreeStep (fun v => v.offence? = none) root root') (hroot : root.offence? = none) :
    root'.offence? = none := by
  refine TreeStep.lasting lasting_offence? (fun {v news} hv hnews => ?_) (by decide) h hroot
  cases v with
  | object old => exact Value.offence?_closed.merge hv hnews
  | _ => exact hv

/-- What stands at an address of a storable tree is storable. -/
theorem storable_of_nodeAt? {root n : Value} {a : List Nat} (h : root.Storable)
    (hn : nodeAt? root a = some n) : n.Storable :=
  (Value.lasting_plain.nodeAt? h.plain hn).storable (lasting_offence?.nodeAt? h.offence? hn)

/-- What was put into a node of a JSON-like tree is JSON-like. -/
theorem offence?_of_update {root root' id v : Value} {name : String}
    (h : update root id (.ofFields [(name, v)]) = .ok (some root'))
    (hroot' : root'.offence? = none) : v.offence? = none := by
  obtain ⟨news, visit, hnews, hlocate, -, rfl⟩ := update_eq h
  have hplaced := (locate_eq hlocate).1
  have hnode := lasting_offence?.nodeAt? hroot' (nodeAt?_editAt hplaced.node _)
  obtain ⟨old, hold⟩ := (Value.isObject_iff visit.node).mp hplaced.isObject
  cases hnews
  rw [hold] at hnode
  exact Value.offence?_closed.fields hnode (.text name, v) (Fields.mem_of_get? (Fields.get?_set ..))

end Tree

/-- The calls that answer with the tree or a part of it. -/
def Call.showsTree : Call → Bool
  | tree => true
  | node _ => true
  | document => true
  | _ => false

namespace Session

open PageBuilder.Tree (TreeStep Kept)
open Value (Storable Workable)

variable {s : Session} {q : Inquiry}

/-! ## Tree and selection after a call -/

/-- What every call does to the tree, and that it selects nothing but texts. -/
theorem call_step {P : Value → Prop} (hP : ∀ v, v.Storable → P v) (hw : s.store.root.Workable)
    (body : List UInt8) (c : Call)
    (hput : ∀ id event, c.actionsOf? = some (id, event) → PutsOnly P s id event) :
    TreeStep P s.store.root (s.call body c).session.store.root ∧
      (s.store.SelectsText → (s.call body c).session.store.SelectsText) := by
  let Steps (o : Outcome) : Prop := TreeStep P s.store.root o.session.store.root ∧
    (s.store.SelectsText → o.session.store.SelectsText)
  have same : ∀ {answer requests}, Steps ⟨s, answer, requests⟩ := ⟨.same, id⟩
  cases hc : c.onlyEdits with
  | true =>
    have hedited := call_editedBy hP hw body hc hput
    exact ⟨hedited.root, hedited.selected⟩
  | false =>
    cases c with
    | resetSession =>
      refine withBody_cases (P := Steps) (fun _ _ _ _ _ => same) fun v _ => ?_
      simp only
      split
      · exact ⟨.reset, fun _ => .inl rfl⟩
      · exact same
    | runEvent id event =>
      refine withBody_cases (P := Steps) (fun _ _ _ _ _ => same) fun v _ => ?_
      refine withNode_cases (P := Steps) (fun _ _ _ _ _ => same) (fun _ _ => same) fun node _ => ?_
      simp only
      split
      · exact same
      · exact ⟨.same, fun h => h⟩
    | putContext key =>
      refine withBody_cases (P := Steps) (fun _ _ _ _ _ => same) fun v _ => ?_
      split
      · exact same
      · rename_i value _
        have hroot := s.store.setContextValue_root (.text key) value
        have hselected (h : s.store.SelectsText) :=
          Store.setContextValue_selectsText h (.text key) value
        split <;> rename_i heq <;> rw [heq] at hroot hselected
        · exact ⟨hroot ▸ .same, hselected⟩
        · exact ⟨hroot ▸ .same, hselected⟩
    | _ => cases hc

/-- A request that names no call does nothing. -/
theorem outcome_of_no_call (h : Call.ofRequest? q.method q.path = none) :
    (s.outcome q).session = s := by
  unfold outcome
  split
  · rfl
  · simp only [h]
    rfl

theorem Reached.selectsText (h : Reached s) : s.store.SelectsText := by
  induction h with
  | reset s context => exact .inl rfl
  | @serve s hreached q ih =>
    rw [serve_session]
    cases hc : Call.ofRequest? q.method q.path with
    | none =>
      rw [outcome_of_no_call hc]
      exact ih
    | some c =>
      have hw := hreached.kept.workable
      rw [outcome_of_call hc]
      exact (call_step (fun _ => Storable.workable) hw q.body c
        fun id event _ => putsOnly_workable hw id event).2 ih

/-! ## Trees that stay JSON-like -/

/-- A request that would put event lists under names that are no texts into the tree, leaves the
tree as it is. -/
def Spares (s : Session) (q : Inquiry) : Prop :=
  ∀ c id event node events, Call.ofRequest? q.method q.path = some c →
    c.actionsOf? = some (id, event) → Tree.find s.store.root (.text id) = .ok (some node) →
    Events.ofNode node = .ok events → events.Misnamed →
    (s.serve q).2.store.root = s.store.root

/-- Event lists under texts that are put into a node are JSON-like with what was there. -/
theorem putsOnly_jsonLike (hw : s.store.root.Workable) {id event : String}
    (h : ∀ node events, Tree.find s.store.root (.text id) = .ok (some node) →
      Events.ofNode node = .ok events → ¬ events.Misnamed) :
    PutsOnly (fun v => v.offence? = none) s id event := by
  intro node events actions hfound hlisted hactions
  have hhold := Events.ofNode_holdEvents hlisted (Tree.workable_of_find hw hfound)
  have hnamed := (Fields.not_misnamed_iff events).mp (h node events hfound hlisted)
  have hevents : (Value.object events).offence? = none :=
    (Value.offence?_object events).mpr fun f hf => ⟨hnamed f hf, (hhold.2 f hf).2.offence?⟩
  have hput := Value.offence?_closed.set hevents (Storable.list hactions).offence? event
  have hempty : (Value.object []).offence? = none := rfl
  exact Value.offence?_closed.set hempty hput "events"

/-- If event lists under names that are no texts are put into a node and the tree is JSON-like
then, it is the tree that was there. -/
theorem putActions_root_of_misnamed {id event : String} {events : Fields} {actions : List Value}
    (hmisnamed : events.Misnamed)
    (h : (s.putActions id event events actions).2.root.offence? = none) :
    (s.putActions id event events actions).2.root = s.store.root := by
  unfold putActions Store.update at h ⊢
  simp only at h ⊢
  cases hupdate : Tree.update s.store.root (.text id)
      (.ofFields [("events", .object (Fields.set events event (.list actions)))]) with
  | error f => rfl
  | ok edited =>
    cases edited with
    | none => rfl
    | some root' =>
      rw [hupdate] at h
      have hput := Tree.offence?_of_update hupdate h
      have hnamed := fun f hf => ((Value.offence?_object _).mp hput f hf).1
      exact absurd (hmisnamed.set event _) ((Fields.not_misnamed_iff _).mpr hnamed)

/-- A request keeps a JSON-like tree so if all event lists that it changes are under texts. -/
theorem serve_jsonLike (hk : Kept s.store.root) (h : s.store.root.offence? = none)
    (hnamed : ∀ c id event node events, Call.ofRequest? q.method q.path = some c →
      c.actionsOf? = some (id, event) → Tree.find s.store.root (.text id) = .ok (some node) →
      Events.ofNode node = .ok events → ¬ events.Misnamed) :
    (s.serve q).2.store.root.offence? = none := by
  rw [serve_session]
  cases hcall : Call.ofRequest? q.method q.path with
  | none =>
    rw [outcome_of_no_call hcall]
    exact h
  | some c =>
    rw [outcome_of_call hcall]
    refine (call_step (P := fun v => v.offence? = none) (fun _ => Storable.offence?)
      hk.workable q.body c fun id event hc => ?_).1.jsonLike h
    exact putsOnly_jsonLike hk.workable fun node events => hnamed c id event node events hcall hc

/-- A request keeps a JSON-like tree so just if it puts no event lists under other names than texts
into it. -/
theorem serve_jsonLike_iff (hk : Kept s.store.root) (h : s.store.root.offence? = none) :
    (s.serve q).2.store.root.offence? = none ↔ s.Spares q := by
  constructor
  · intro hafter c id event node events hcall hc hfound hlisted hmisnamed
    rw [serve_session, outcome_of_call hcall] at hafter ⊢
    have hactions : ActionsPut s id event (s.call q.body c).session := call_put hk.workable hc
    cases hactions with
    | same hstore _ => rw [hstore]
    | @put node' events' actions hfound' hlisted' _ hstore _ =>
      obtain rfl : node = node' :=
        Option.some.inj (Except.ok.inj (hfound.symm.trans hfound'))
      obtain rfl : events = events' := Except.ok.inj (hlisted.symm.trans hlisted')
      rw [hstore] at hafter ⊢
      exact putActions_root_of_misnamed hmisnamed hafter
  · intro hspares
    by_cases hbad : ∃ c id event node events, Call.ofRequest? q.method q.path = some c ∧
        c.actionsOf? = some (id, event) ∧ Tree.find s.store.root (.text id) = .ok (some node) ∧
        Events.ofNode node = .ok events ∧ events.Misnamed
    · obtain ⟨c, id, event, node, events, hcall, hc, hfound, hlisted, hmisnamed⟩ := hbad
      rw [hspares c id event node events hcall hc hfound hlisted hmisnamed]
      exact h
    · refine serve_jsonLike hk h fun c id event node events hcall hc hfound hlisted hmisnamed => ?_
      exact hbad ⟨c, id, event, node, events, hcall, hc, hfound, hlisted, hmisnamed⟩

/-! ## Answers -/

/-- The tree is JSON-like and has a digest, and every call that shows it is answered. -/
structure TreeSound (s : Session) : Prop where
  jsonLike : s.store.root.offence? = none
  digest : ∃ digest, s.store.digest = .ok digest
  answered : ∀ q call, Call.ofRequest? q.method q.path = some call → call.showsTree = true →
    (s.serve q).1.status ≠ 500

section Answers

variable (hroot : s.store.root.Storable)

include hroot

theorem treeCall_sound (hselected : s.store.SelectsText) : s.treeCall.answer.Sound := by
  obtain ⟨digest, hdigest⟩ := digest_of_storable hroot
  unfold treeCall
  simp only [hdigest]
  refine Answer.sound_ok (by simp) ?_ (List.forall_mem_nil _)
  simp [hroot, (shown_selected hselected).1, Atom.offence?]

omit hroot in
/-- A tree that is not JSON-like is not answered with. -/
theorem treeCall_of_offence (h : s.store.root.offence? ≠ none) : s.treeCall.answer = .broken := by
  unfold treeCall
  split
  · rfl
  · rename_i digest hdigest
    obtain ⟨text, htext, -⟩ := map_eq_ok_iff.mp hdigest
    exact absurd ((Json.canonicalText_eq_ok_iff _ _).mp htext).1 h

theorem documentCall_sound : s.documentCall.answer.Sound := by
  have hdocument : (Document.exported s.settings.version s.store .null).Storable :=
    storable_documentOf s.settings.version hroot
  exact Answer.sound_ok (by simp) (List.forall_mem_singleton.mpr hdocument) (List.forall_mem_nil _)

theorem nodeCall_sound (hk : Kept s.store.root) (id : String) : (s.nodeCall id).answer.Sound := by
  refine withNode_sound hk fun node hfound => ?_
  obtain ⟨found, hlocate, hnode⟩ := map_eq_ok_iff.mp hfound
  obtain ⟨visit, rfl, rfl⟩ := Option.map_eq_some_iff.mp hnode
  have hplaced := (Tree.locate_eq hlocate).1
  have hparent : Tree.findParent s.store.root (.text id) = .ok visit.parent := by
    rw [Tree.findParent, hlocate]
    rfl
  have hparentId : ((visit.parent.map fun p : Value => p.field "id").getD .null : Value).Storable := by
    cases hp : visit.parent with
    | none => exact .atom rfl
    | some p =>
      obtain ⟨above, -, habove, -⟩ := hplaced.inner p hp
      exact Storable.closed.field (Tree.storable_of_nodeAt? hroot habove) "id"
  simp only [hparent]
  refine Answer.sound_ok (by simp) ?_ (List.forall_mem_nil _)
  simp [Tree.storable_of_nodeAt? hroot hplaced.node, hparentId]

end Answers

theorem treeSound_of_jsonLike (hk : Kept s.store.root) (hselected : s.store.SelectsText)
    (h : s.store.root.offence? = none) : s.TreeSound := by
  have hroot := hk.plain.storable h
  refine ⟨h, digest_of_storable hroot, fun q call hcall hshows => serve_of_sound ?_⟩
  rw [outcome_of_call hcall]
  cases call with
  | tree => exact treeCall_sound hroot hselected
  | node id => exact nodeCall_sound hroot hk id
  | document => exact documentCall_sound hroot
  | _ => cases hshows

/-! ## All sessions -/

theorem Reached.after (h : Reached s) (queries : List Inquiry) : Reached (s.after queries) := by
  induction queries generalizing s with
  | nil => exact h
  | cons q rest ih => exact ih (.serve h q)

theorem after_concat (s : Session) (queries : List Inquiry) (q : Inquiry) :
    s.after (queries ++ [q]) = ((s.after queries).serve q).2 := by
  rw [Session.after, List.foldl_append]
  rfl

/-- After a reset the tree stays JSON-like, has a digest and is answered with, all along a list of
requests, just if none of them puts event lists under names that are no texts into the tree. -/
theorem treeSound_iff (s : Session) (context : Value) (queries : List Inquiry) :
    (∀ n, ((s.reset context).after (queries.take n)).TreeSound) ↔
      ∀ n q, queries[n]? = some q → ((s.reset context).after (queries.take n)).Spares q := by
  have hreached : ∀ n, Reached ((s.reset context).after (queries.take n)) := fun n =>
    (Reached.reset s context).after _
  have hnext : ∀ {n q}, queries[n]? = some q → (s.reset context).after (queries.take (n + 1)) =
      (((s.reset context).after (queries.take n)).serve q).2 := by
    intro n q hq
    rw [List.take_add_one, hq, Option.toList_some, after_concat]
  constructor
  · intro h n q hq
    rw [← serve_jsonLike_iff (hreached n).kept (h n).jsonLike, ← hnext hq]
    exact (h (n + 1)).jsonLike
  · intro h n
    refine treeSound_of_jsonLike (hreached n).kept (hreached n).selectsText ?_
    induction n with
    | zero => exact show Store.initialRoot.offence? = none by decide
    | succ n ih =>
      cases hq : queries[n]? with
      | none =>
        rw [List.take_add_one, hq, Option.toList_none, List.append_nil]
        exact ih
      | some q =>
        rw [hnext hq]
        exact (serve_jsonLike_iff (hreached n).kept ih).mpr (h n q hq)

/-! ## Event lists given as pairs -/

def pairs : Value := .list [.list [.int 1, .list []]]

/-- A request that puts a list of pairs in the place of the event lists of the page. -/
def pairUp : Inquiry :=
  ⟨"PATCH", "/nodes/root", Text.Utf8.encode "\x7b\"events\":[[1,[]]]\x7d", none⟩

/-- A request to delete an action that is not there. -/
def deleteNothing : Inquiry := ⟨"DELETE", "/nodes/root/events/e/actions/x", [], none⟩

def askTree : Inquiry := ⟨"GET", "/tree", [], none⟩

def pairedRoot : Value := Tree.putFields [(.text "events", pairs)] Store.initialRoot

/-- What is made of the pairs when actions are put in for an event. -/
def numbered : Value := .object [(.atom (.int 1), .list []), (.text "e", .list [])]

def numberedRoot : Value := Tree.putFields [(.text "events", numbered)] Store.initialRoot

theorem serve_pairUp : (begun.serve pairUp).2 =
    begun.withStore (begun.store.withRoot pairedRoot) := by
  have hcall : Call.ofRequest? "PATCH" "/nodes/root" = some (.patchNode "root") := by decide
  have hwritten : Json.write .compact 0 (.ofFields [("events", pairs)]) =
      .ok "\x7b\"events\":[[1,[]]]\x7d".toList := by decide +kernel
  have hread : readBody pairUp.body = .ok (.ofFields [("events", pairs)]) :=
    readBody_of_write (by simp [pairs, Atom.offence?]) hwritten (by decide +kernel)
  have hupdate : Tree.update begun.store.root (.text "root") (.ofFields [("events", pairs)]) =
      .ok (some pairedRoot) := by cbv
  exact serve_patchNode (q := pairUp) hcall hread hupdate

/-- The tree holds the object that was made of the pairs. -/
theorem after_pairs : begun.after [pairUp, deleteNothing] =
    begun.withStore (begun.store.withRoot numberedRoot) := by
  have hcall : Call.ofRequest? "DELETE" "/nodes/root/events/e/actions/x" =
      some (.deleteAction "root" "e" "x") := by decide
  have hfind : Tree.find pairedRoot (.text "root") = .ok (some pairedRoot) := by cbv
  have hlisted : (do
      let events ← Events.ofNode pairedRoot
      return (events, ← Events.actions events "e") : Except Fault (Fields × List Value)) =
        .ok ([(.atom (.int 1), .list [])], []) := by cbv
  have hnumbered : Value.object (Fields.set [(.atom (.int 1), .list [])] "e" (.list [])) =
      numbered := by cbv
  have hupdate : Tree.update pairedRoot (.text "root") (.ofFields [("events", numbered)]) =
      .ok (some numberedRoot) := by cbv
  let paired := begun.withStore (begun.store.withRoot pairedRoot)
  have hroot : paired.store.root = pairedRoot := rfl
  have hputs : paired.putActions "root" "e" [(.atom (.int 1), .list [])] [] =
      (.ok true, begun.store.withRoot numberedRoot) := by
    unfold putActions Store.update
    simp only [hnumbered]
    rw [hroot, hupdate]
    rfl
  have hcut : (paired.deleteActionCall "root" "e" "x").session =
      begun.withStore (begun.store.withRoot numberedRoot) := by
    unfold deleteActionCall withNode
    rw [hroot]
    simp only [hfind, hlisted, List.filter_nil]
    rw [answerActions_session, hputs]
    rfl
  rw [after_cons, serve_pairUp, after_cons, after, List.foldl_nil, serve_session,
    outcome_of_call (q := deleteNothing) hcall]
  exact hcut

theorem status_askTree (h : s.store.root.offence? ≠ none) : (s.serve askTree).1.status = 500 := by
  have hcall : Call.ofRequest? "GET" "/tree" = some .tree := by decide
  refine serve_of_not_sent ?_
  rw [outcome_of_call (q := askTree) hcall]
  show s.treeCall.answer.sent? = none
  rw [treeCall_of_offence h]
  rfl

/-- A list of pairs is granted in the place of event lists; the next change of actions makes an
object of it in which a number is a name, and the tree can not be answered with any more. -/
theorem not_treeSound_paired :
    let s := begun.after [pairUp, deleteNothing]
    s.store.root = numberedRoot ∧ s.store.root.offence? ≠ none ∧
      (s.serve askTree).1.status = 500 ∧ ¬ s.TreeSound := by
  have hroot : (begun.after [pairUp, deleteNothing]).store.root = numberedRoot := by
    rw [after_pairs]
    exact rfl
  have hoffence : (begun.after [pairUp, deleteNothing]).store.root.offence? ≠ none := by
    rw [hroot]
    decide
  exact ⟨hroot, hoffence, status_askTree hoffence, fun h => hoffence h.jsonLike⟩

end Session

end PageBuilder
