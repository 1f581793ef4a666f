import PageBuilder.Proofs.Tree.Draws
import PageBuilder.Proofs.Tree.Guest
import PageBuilder.Proofs.Tree.Insertion

/-!
How many draws it takes to give the nodes of a guest their identifiers.

* `Guest.Stored.namesIn`: what is stored of a guest has no identifier twice just if no node is
  listed twice;
* `Guest.Stored.inUse_eq_iff`: what is put into use is what is stored just if no node is listed
  twice;
* `Guest.Ended`: what settling a guest comes to, beside what settling its value comes to;
* `Guest.settles_within_draws`: if no draws begin alike, a guest is settled or refused with as few
  draws as its value, and the identifiers that are put into use are those that are stored just if no
  node is listed twice.
-/

namespace PageBuilder.Guest

open PageBuilder.Fresh (Turn)
open PageBuilder.Tree (namesIn nodes)

section Stored

variable {g : Guest} {source : IdSource} {a b : Allotment} {item stored : Value}
  (h : g.Stored source a item stored b)

include h

/-- All identifiers of what is stored are texts, one for each time that a node is listed. -/
theorem Stored.namesIn : (nodes stored).map (fun n => n.field "id") =
    (Tree.namesIn stored).map .text ∧ ((Tree.namesIn stored).Nodup ↔ g.Once) := by
  obtain ⟨texts, htexts, honce⟩ := h.named
  have heq : Tree.namesIn stored = texts := by
    rw [Tree.namesIn, htexts, List.filterMap_map]
    exact List.filterMap_some
  rw [heq]
  exact ⟨htexts, honce⟩

theorem Stored.length_namesIn : (Tree.namesIn stored).length = g.names.length := by
  have hlength := congrArg List.length h.namesIn.1
  rw [List.length_map, List.length_map, h.length] at hlength
  exact hlength.symm

theorem Stored.length_turns {turns : List Turn} (hturns : Fresh.Turns source a turns b) :
    turns.length = g.names.length := by
  have hlength := congrArg List.length hturns.used_eq
  rw [h.grown, List.length_append, List.length_reverse, List.length_map] at hlength
  omega

/-- What is put into use is what is stored just if no node is listed twice: otherwise there are more
turns than identifiers that are stored. -/
theorem Stored.inUse_eq_iff {turns : List Turn}
    (hended : Fresh.Ended source g.value a turns (some item) b) :
    b.inUse = a.inUse ∪ (Tree.namesIn stored).toFinset ↔ g.Once := by
  have hturns := hended.course.turns
  constructor
  · intro heq
    have hcard := hturns.card_inUse
    rw [heq, h.length_turns hturns, ← h.length_namesIn] at hcard
    have hle := Finset.card_union_le a.inUse (Tree.namesIn stored).toFinset
    have hlist := List.toFinset_card_le (Tree.namesIn stored)
    rw [← h.namesIn.2, ← List.dedup_eq_self]
    refine (List.dedup_sublist _).eq_of_length ?_
    rw [← List.card_toFinset]
    omega
  · intro honce
    have hids : Tree.namesIn stored = turns.map Turn.id := by
      rw [Tree.namesIn, h.once honce, hended.ids item rfl, List.filterMap_map]
      exact congrFun List.filterMap_eq_map turns
    rw [hids]
    exact hended.inUse

end Stored

/-- A guest is settled or refused as its value is, at the end of a course with few draws for each
turn. A node has as many turns as it is listed, so what is put into use is what is stored just if
none is listed twice. -/
structure Ended (source : IdSource) (g : Guest) (a : Allotment) (turns : List Turn)
    (item result : Option Value) (b : Allotment) : Prop where
  value : Fresh.Ended source g.value a turns item b
  settled : g.settle source a = (result.elim (.error .unfit) .ok, b)
  isSome_eq : result.isSome = item.isSome
  grown : b.inUse.card = a.inUse.card + turns.length
  listed : ∀ stored ∈ result, (nodes stored).length = turns.length
  inUse_iff : ∀ stored ∈ result, b.inUse = a.inUse ∪ (namesIn stored).toFinset ↔ g.Once
  once : g.Once → result = item

/-- If no draws that it makes begin alike, settling a guest ends. -/
theorem settles_within_draws (source : IdSource) (g : Guest) (a : Allotment)
    (h : source.Distinct a.drawn (g.settle source a).2.drawn) :
    ∃ turns item result b, g.Ended source a turns item result b := by
  rcases g.settle_cases source a with ⟨e, b, hvalue, hsettled⟩ | ⟨item, stored, b, hstored⟩
  · rw [hsettled] at h
    obtain ⟨turns, result, b', hended⟩ := Fresh.settle_within_draws source g.value a (hvalue ▸ h)
    have heq := hended.settled
    rw [hvalue] at heq
    cases result with
    | none =>
      cases heq
      exact ⟨turns, none, none, b, hended, hsettled, rfl, hended.course.turns.card_inUse,
        (fun _ hmem => by cases hmem), (fun _ hmem => by cases hmem), fun _ => rfl⟩
    | some item => cases heq
  · rw [hstored.settled] at h
    obtain ⟨turns, result, b', hended⟩ :=
      Fresh.settle_within_draws source g.value a (hstored.value ▸ h)
    have heq := hended.settled
    rw [hstored.value] at heq
    cases result with
    | none => cases heq
    | some item' =>
      cases heq
      refine ⟨turns, some item, some stored, b, hended, hstored.settled, rfl,
        hended.course.turns.card_inUse, ?_, ?_, fun honce => congrArg some (hstored.once honce)⟩
      · rintro stored' hmem
        cases hmem
        rw [hstored.length, hstored.length_turns hended.course.turns]
      · rintro stored' hmem
        cases hmem
        exact hstored.inUse_eq_iff hended

/-- Draws that are numbered one after the other. -/
def tickets : IdSource := ⟨fun n => String.ofList (Text.hex 12 n ++ List.replicate 20 '0'), 0⟩

/-- A row whose identifier is in use, with a button that has none and a text that keeps its own. -/
def trolley : Guest where
  memory n := match n with
    | 0 => ⟨[(.text "id", .text "cart"), (.text "type", .text "row"),
        (.text "children", .list [])], [.object 1, .object 2]⟩
    | 1 => ⟨[(.text "type", .text "button")], []⟩
    | _ => ⟨[(.text "id", .text "tag"), (.text "type", .text "text")], []⟩
  top := .object 0
  room := 2
  finite := by decide +kernel

theorem settles_within_draws_trolley :
    let a : Allotment := ⟨["cart", "row_000000000001"], 0⟩
    tickets.Distinct a.drawn (trolley.settle tickets a).2.drawn ∧ trolley.Once ∧
      (trolley.settle tickets a).2.drawn = 3 ∧
      ∃ turns item result b, trolley.Ended tickets a turns item result b := by
  intro a
  have hdistinct : tickets.Distinct a.drawn (trolley.settle tickets a).2.drawn := by
    decide +kernel
  exact ⟨hdistinct, by decide +kernel, by decide +kernel,
    settles_within_draws tickets trolley a hdistinct⟩

/-- A row that has one text listed twice. -/
def twice : Guest where
  memory n := match n with
    | 0 => ⟨[(.text "type", .text "row"), (.text "children", .list [])],
        [.object 1, .object 1]⟩
    | _ => ⟨[(.text "id", .text "x"), (.text "type", .text "text")], []⟩
  top := .object 0
  room := 2
  finite := by decide +kernel

/-- The text has two turns. The identifier that it keeps in the first is in use from then on, and is
lost in the second. -/
theorem settle_twice_not_grown : ∃ stored b,
    tickets.Distinct 0 b.drawn ∧ twice.settle tickets ⟨[], 0⟩ = (.ok stored, b) ∧
      namesIn stored = ["row_000000000001", "text_000000000002", "text_000000000002"] ∧
      b.used = ["text_000000000002", "x", "row_000000000001"] ∧
      b.inUse ≠ (⟨[], 0⟩ : Allotment).inUse ∪ (namesIn stored).toFinset := by
  refine ⟨_, _, ?_, rfl, ?_, ?_, ?_⟩
  all_goals decide +kernel

end PageBuilder.Guest
