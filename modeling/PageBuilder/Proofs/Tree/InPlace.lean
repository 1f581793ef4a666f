import PageBuilder.Proofs.Tree.Alike

/-!
Edits of one node in its place, in trees of any shape.

* `editAt_editAt`: of two edits at one address, one after the other;
* `editAt_eq_self_iff`: an edit leaves the tree alone just if it leaves the node alone;
* `InPlace`: changes of nodes that keep what nodes are found by;
* `locate_editAt`: after such a change every node is found where it was;
* `update_putField`: a field that is neither identifier, type nor child list is put into every node
  that is found.
-/

namespace PageBuilder.Tree

/-! ## Edits at one address -/

theorem editAt_editAt (a : List Nat) (f g : Value → Value) (v : Value) :
    editAt a f (editAt a g v) = editAt a (fun n => f (g n)) v := by
  induction a generalizing v with
  | nil => rfl
  | cons i rest ih =>
    simp only [editAt]
    rw [editChildren_editChildren]
    refine editChildren_congr ?_
    rw [List.modify_modify_eq]
    exact congrArg (v.children.modify i ·) (funext ih)

section Address

variable {v n : Value} {a : List Nat} (h : nodeAt? v a = some n)

include h

theorem editAt_id : editAt a (fun n => n) v = v := by
  induction a generalizing v with
  | nil => rfl
  | cons i rest ih =>
    obtain ⟨c, hc, hrest⟩ := nodeAt?_cons h
    rw [editAt]
    refine (editChildren_congr ?_).trans
      (editChildren_self (isSome_childList?_of_mem (List.mem_of_getElem? hc)))
    conv_rhs => rw [eq_take_cons_drop hc]
    rw [modify_eq_take_cons_drop hc, ih hrest]

/-- An edit leaves the tree alone just if it leaves the node alone. -/
theorem editAt_eq_self_iff (f : Value → Value) : editAt a f v = v ↔ f n = n := by
  constructor
  · intro heq
    have hat := nodeAt?_editAt h f
    rw [heq, h] at hat
    exact (Option.some.inj hat).symm
  · intro hn
    rw [editAt_congr h (g := fun n => n) hn, editAt_id h]

end Address

/-! ## Changes in place -/

/-- A change of values that keeps what nodes are found by. -/
structure InPlace (f : Value → Value) : Prop where
  isObject : ∀ v, (f v).isObject = v.isObject
  id : ∀ v, (f v).field "id" = v.field "id"
  children : ∀ v, (f v).children = v.children

/-- A tree, and the tree after a change at some address. -/
def ChangedAt (f : Value → Value) (n m : Value) : Prop := m = n ∨ ∃ a, m = editAt a f n

theorem forall₂_modify {α : Type} {R : α → α → Prop} (hrefl : ∀ x, R x x) {g : α → α}
    (hg : ∀ x, R x (g x)) (i : Nat) (items : List α) : List.Forall₂ R items (items.modify i g) := by
  induction items generalizing i with
  | nil => cases i <;> exact .nil
  | cons x rest ih =>
    cases i with
    | zero => exact .cons (hg x) (List.forall₂_same.mpr fun y _ => hrefl y)
    | succ i => exact .cons (hrefl x) (ih i)

section InPlace

variable {f : Value → Value} (hf : InPlace f)

include hf

theorem isObject_editAt (a : List Nat) (v : Value) : (editAt a f v).isObject = v.isObject := by
  cases a with
  | nil => exact hf.isObject v
  | cons i rest => exact isObject_editChildren ..

theorem id_editAt (a : List Nat) (v : Value) : (editAt a f v).field "id" = v.field "id" := by
  cases a with
  | nil => exact hf.id v
  | cons i rest => exact field_editChildren (by decide) ..

theorem changedAt_passesDown : PassesDown (ChangedAt f) := by
  have hrefl : ∀ v, ChangedAt f v v := fun v => .inl rfl
  rintro n m (rfl | ⟨a, rfl⟩)
  · exact ⟨rfl, List.forall₂_same.mpr fun c _ => hrefl c⟩
  · refine ⟨isObject_editAt hf a n, ?_⟩
    cases a with
    | nil =>
      rw [editAt, hf.children]
      exact List.forall₂_same.mpr fun c _ => hrefl c
    | cons i rest =>
      rw [editAt]
      cases ho : n.isObject with
      | true =>
        rw [children_editChildren ho]
        exact forall₂_modify hrefl (fun c => .inr ⟨rest, rfl⟩) i _
      | false =>
        cases n with
        | object fields => cases ho
        | _ => exact List.forall₂_same.mpr fun c _ => hrefl c

/-- A node that was changed in its place is found there. -/
theorem locate_editAt {root id : Value} {v : Visit} (hv : locate root id = .ok (some v)) :
    ∃ w, locate (editAt v.address f root) id = .ok (some w) ∧ w.address = v.address ∧
      w.node = f v.node := by
  have hid : ∀ n m, ChangedAt f n m → m.field "id" = n.field "id" := by
    rintro n m (rfl | ⟨a, rfl⟩)
    · rfl
    · exact id_editAt hf a n
  obtain ⟨w, hw, hvw⟩ := locate_alike (changedAt_passesDown hf) (.inr ⟨v.address, rfl⟩) hid hv
  refine ⟨w, hw, hvw.address.symm, ?_⟩
  have hat := nodeAt?_editAt (locate_eq hv).1.node f
  have hplaced := (locate_eq hw).1.node
  rw [← hvw.address, hat] at hplaced
  exact (Option.some.inj hplaced).symm

end InPlace

/-- The root is found first. -/
theorem locate_root {root : Value} {x : String} (ho : root.isObject)
    (hx : root.field "id" = .text x) : locate root (.text x) = .ok (some (.start root)) := by
  refine map_eq_ok_iff.mpr ⟨_, if_pos ho, ?_⟩
  rw [walkFrom]
  exact List.find?_cons_of_pos ((Value.same_text_iff _ _).mpr hx)

/-! ## Fields -/

/-- A value in a field of an object. -/
def putField (name : String) (w : Value) : Value → Value := putFields [(.text name, w)]

theorem putField_object (name : String) (w : Value) (fields : Fields) :
    putField name w (.object fields) = .object (Fields.set fields name w) := rfl

theorem putField_putField (name : String) (w w' : Value) (v : Value) :
    putField name w (putField name w' v) = putField name w v := by
  cases v with
  | object fields => rw [putField_object, putField_object, putField_object, Fields.set_set]
  | _ => rfl

theorem get?_putField {v : Value} (h : v.isObject) (name : String) (w : Value) :
    (putField name w v).get? name = some w := by
  obtain ⟨fields, rfl⟩ := (Value.isObject_iff v).mp h
  exact Fields.get?_set fields name w

theorem field_putField {v : Value} (h : v.isObject) (name : String) (w : Value) :
    (putField name w v).field name = w := by
  rw [Value.field_eq, get?_putField h, Option.getD_some]

/-- An object is left alone just if it has the field with the value. -/
theorem putField_eq_self_iff {v : Value} (h : v.isObject) (name : String) (w : Value) :
    putField name w v = v ↔ v.get? name = some w := by
  obtain ⟨fields, rfl⟩ := (Value.isObject_iff v).mp h
  rw [putField_object]
  constructor
  · intro heq
    rw [← heq]
    exact Fields.get?_set fields name w
  · intro hget
    exact congrArg Value.object (Fields.set_eq_self hget)

theorem inPlace_putField {name : String} (hid : name ≠ "id") (hchildren : name ≠ "children")
    (w : Value) : InPlace (putField name w) where
  isObject v := by cases v <;> rfl
  id v := by
    cases v with
    | object fields => exact Fields.field_set_of_ne fields w hid.symm
    | _ => rfl
  children v := by
    cases v with
    | object fields =>
      rw [putField_object, Value.children, Value.children, Value.childList?, Value.childList?,
        Fields.get?_set_of_ne fields w hchildren.symm]
    | _ => rfl

/-- A field that says nothing of identifier, type and children is put into every node that is found.
-/
theorem update_putField {root id : Value} {v : Visit} (hv : locate root id = .ok (some v))
    {name : String} (hname : name ∉ ["id", "type", "children"]) (w : Value) :
    update root id (.object [(.text name, w)]) =
      .ok (some (editAt v.address (putField name w) root)) := by
  have hallows : allowsFields v.node [(.text name, w)] = true := by
    simp only [List.mem_cons, List.not_mem_nil, or_false, not_or] at hname
    rw [allowsFields, List.all_cons, List.all_nil, Bool.and_true]
    unfold allowsField
    split
    · rename_i heq
      cases heq
      exact absurd rfl hname.2.2
    · rename_i heq
      cases heq
      exact absurd rfl hname.1
    · rename_i heq
      cases heq
      exact absurd rfl hname.2.1
    · rfl
  show (locate root id >>= _) = _
  rw [hv]
  exact if_pos hallows

end PageBuilder.Tree
