import Mathlib.Data.List.Flatten
import Mathlib.Logic.Equiv.List
import PageBuilder.Proofs.Tree.Guest

/-!
Values as guests. Each node of a value has a name of its own, which tells its address.

* `value?_memberAt`: what stands at an address is the value of the member of that name;
* `names_memberAt`: each name is listed once;
* `exists_once`: every value is that of a guest in which no node is listed twice.
-/

namespace PageBuilder.Guest

open PageBuilder.Tree (nodeAt? nodeAt?_append)

/-- What stands at an address, as a member of a child list. -/
def memberAt (a : List Nat) (v : Value) : Member :=
  if h : v.isObject then .object (Encodable.encode a) else .other v (by simpa using h)

def membersAt (a : List Nat) (v : Value) : List Member :=
  v.children.mapIdx fun i c => memberAt (a ++ [i]) c

/-- All that stands in a value, each under the name for its address. -/
def memoryOf (v : Value) : Memory := fun n =>
  let a := (Encodable.decode n : Option (List Nat)).getD []
  let w := (nodeAt? v a).getD .null
  ⟨w.fields?.getD [], membersAt a w⟩

section Values

variable {v w : Value} {a : List Nat}

theorem memoryOf_encode {fields : Fields} (h : nodeAt? v a = some (.object fields)) :
    memoryOf v (Encodable.encode a) = ⟨fields, membersAt a (.object fields)⟩ := by
  simp only [memoryOf, Encodable.encodek, Option.getD_some, h, Value.fields?]

theorem memberAt_object (a : List Nat) (fields : Fields) :
    memberAt a (.object fields) = .object (Encodable.encode a) := dif_pos rfl

theorem memberAt_other (hw : w.isObject = false) : memberAt a w = .other w hw :=
  dif_neg (by simp [hw])

theorem nodeAt?_child (h : nodeAt? v a = some w) {i : Nat} (hi : i < w.children.length) :
    nodeAt? v (a ++ [i]) = some w.children[i] := by
  rw [nodeAt?_append, h, Option.bind_some, nodeAt?, List.getElem?_eq_getElem hi]
  rfl

theorem listed_membersAt (a : List Nat) (fields : Fields) :
    (Cell.mk fields (membersAt a (.object fields))).listed = membersAt a (.object fields) := by
  cases h : (Value.object fields).childList? with
  | some items => rw [Cell.listed, if_pos (by simp [Cell.hasList, h])]
  | none =>
    have hchildren : (Value.object fields).children = [] := by
      rw [Value.children, h, Option.getD_none]
    rw [Cell.listed, if_neg (by simp [Cell.hasList, h]), membersAt, hchildren, List.mapIdx_nil]

theorem value_children (fields : Fields) (members : List Member) :
    (Cell.mk fields members).value (Value.object fields).children = .object fields := by
  cases h : (Value.object fields).childList? with
  | some items =>
    have hget : Fields.get? fields "children" = some (.list items) :=
      (Value.childList?_eq_some_iff _ items).mp h
    rw [Cell.value_of_hasList (by simp [Cell.hasList, h]), Value.children, h, Option.getD_some,
      Fields.set_eq_self hget]
  | none => rw [Cell.value_of_unlisted (by simp [Cell.hasList, h])]

/-- What stands at an address is the value of the member of that name. -/
theorem value?_memberAt (w : Value) : ∀ a room, nodeAt? v a = some w → sizeOf w ≤ room →
    (memoryOf v).value? room (memberAt a w) = some w := by
  induction w using Value.children_induction with
  | step w ih =>
    intro a room hat hroom
    cases ho : w.isObject with
    | false => rw [memberAt_other ho, Memory.value?_other]
    | true =>
      obtain ⟨fields, rfl⟩ := (Value.isObject_iff w).mp ho
      have hsize := (Value.object fields).sizeOf_children_lt
      obtain ⟨room, rfl⟩ : ∃ k, room = k + 1 := ⟨room - 1, by omega⟩
      rw [memberAt_object, Memory.value?_object_eq_some_iff, memoryOf_encode hat, listed_membersAt]
      refine ⟨_, List.forall₂_iff_get.mpr ⟨List.length_mapIdx, fun i hi hi' => ?_⟩,
        (value_children fields _).symm⟩
      have hmem := List.getElem_mem hi'
      have hlt := Value.sizeOf_lt_of_mem_children hmem
      simp only [List.get_eq_getElem, membersAt, List.getElem_mapIdx]
      exact ih _ hmem (a ++ [i]) room (nodeAt?_child hat hi') (by omega)

/-- If the names of each child are those of addresses below it, each of them once, then so are the
names of all children together. -/
theorem nodup_flatMap_membersAt {f : Member → List Nat}
    (hf : ∀ i (hi : i < w.children.length), (f (memberAt (a ++ [i]) w.children[i])).Nodup ∧
      ∀ n ∈ f (memberAt (a ++ [i]) w.children[i]), ∃ b, n = Encodable.encode (a ++ [i] ++ b)) :
    ((membersAt a w).flatMap f).Nodup ∧
      ∀ n ∈ (membersAt a w).flatMap f, ∃ i b, n = Encodable.encode (a ++ i :: b) := by
  rw [List.nodup_flatMap, List.pairwise_iff_getElem, membersAt]
  refine ⟨⟨fun x hx => ?_, fun i j hi hj hlt n hni hnj => ?_⟩, fun n hn => ?_⟩
  · obtain ⟨i, hi, rfl⟩ := List.mem_mapIdx.mp hx
    exact (hf i hi).1
  · rw [List.length_mapIdx] at hi hj
    rw [List.getElem_mapIdx] at hni hnj
    obtain ⟨b, rfl⟩ := (hf i hi).2 n hni
    obtain ⟨b', heq⟩ := (hf j hj).2 _ hnj
    have haddress := Encodable.encode_injective heq
    rw [List.append_assoc, List.append_assoc, List.append_cancel_left_eq] at haddress
    cases haddress
    exact Nat.lt_irrefl _ hlt
  · obtain ⟨x, hx, hn⟩ := List.mem_flatMap.mp hn
    obtain ⟨i, hi, rfl⟩ := List.mem_mapIdx.mp hx
    obtain ⟨b, rfl⟩ := (hf i hi).2 n hn
    exact ⟨i, b, by rw [List.append_assoc, List.singleton_append]⟩

/-- The names below an address are those of the addresses below it, each of them once. -/
theorem names_memberAt (room : Nat) {w : Value} {a : List Nat} (hat : nodeAt? v a = some w) :
    ((memoryOf v).names room (memberAt a w)).Nodup ∧
      ∀ n ∈ (memoryOf v).names room (memberAt a w), ∃ b, n = Encodable.encode (a ++ b) := by
  induction room generalizing w a with
  | zero =>
    have hnone : (memoryOf v).names 0 (memberAt a w) = [] := by cases memberAt a w <;> rfl
    rw [hnone]
    exact ⟨.nil, List.forall_mem_nil _⟩
  | succ room ih =>
    cases ho : w.isObject with
    | false =>
      rw [memberAt_other ho]
      exact ⟨.nil, List.forall_mem_nil _⟩
    | true =>
      obtain ⟨fields, rfl⟩ := (Value.isObject_iff w).mp ho
      rw [memberAt_object, Memory.names, memoryOf_encode hat]
      obtain ⟨hnodup, hbelow⟩ := nodup_flatMap_membersAt (w := .object fields) (a := a)
        fun i hi => ih (nodeAt?_child hat hi)
      have htaken : (Cell.mk fields (membersAt a (.object fields))).taken.Sublist
          (membersAt a (.object fields)) := by
        rw [Cell.taken, listed_membersAt]
        split
        · exact List.Sublist.refl _
        · exact List.nil_sublist _
      have hsublist := htaken.flatMap ((memoryOf v).names room)
      refine ⟨List.nodup_cons.mpr ⟨fun hmem => ?_, hnodup.sublist hsublist⟩, fun n hn => ?_⟩
      · obtain ⟨i, b, heq⟩ := hbelow _ (hsublist.subset hmem)
        have haddress := Encodable.encode_injective heq
        simp at haddress
      · rcases List.mem_cons.mp hn with rfl | hn
        · exact ⟨[], by rw [List.append_nil]⟩
        · obtain ⟨i, b, rfl⟩ := hbelow n (hsublist.subset hn)
          exact ⟨i :: b, rfl⟩

end Values

/-- Every value is that of a guest in which no node is listed twice. -/
theorem exists_once (v : Value) : ∃ g : Guest, g.value = v ∧ g.Once := by
  have hvalue : (memoryOf v).value? (sizeOf v) (memberAt [] v) = some v :=
    value?_memberAt v [] _ rfl (Nat.le_refl _)
  refine ⟨⟨memoryOf v, memberAt [] v, sizeOf v, by rw [hvalue]; rfl⟩, ?_, ?_⟩
  · rw [Guest.value]
    exact Option.get_of_eq_some _ hvalue
  · exact (names_memberAt (sizeOf v) rfl).1

end PageBuilder.Guest
