import Mathlib.Data.List.Forall2
import PageBuilder.Action.Within
import PageBuilder.Proofs.Action.Parsed
import PageBuilder.Proofs.Action.Place
import PageBuilder.Proofs.Value.Limits

/-!
A plan sorts the entries of a list: each is refused or it is an action, and of the actions those are
told apart whose identifier came before.

* `Plan.Refuses`, `Plan.Parses`, `Plan.Repeats`: what an entry can be, said of the list;
* `Plan.Sorts`: a plan of the entries from some place on, with the places of what it holds;
* `Plan.Sorts.refuse`, `Plan.Sorts.accept`: one entry more;
* `Plan.ofEntries_sorts`: the plan of a list sorts all entries;
* `Plan.Parted`, `Plan.ofValue_parted`: all of this of whole lists;
* `Plan.ofValueWithin_partitions`: within limits there is such a plan, unless a value that a message
  shows has no text.
-/

namespace PageBuilder.Plan

/-! ## Entries -/

section Entries

variable (raws : List Value)

/-- The entry at a place is no action, for what the issue tells. -/
def Refuses (i : Nat) (issue : Issue) : Prop :=
  ∃ raw r, raws[i]? = some raw ∧ Action.parse (entryPath i) raw = .error r ∧
    issue = r.toIssue .null

/-- The entry at a place is an action. -/
def Parses (i : Nat) (action : Action) : Prop :=
  ∃ raw, raws[i]? = some raw ∧ Action.parse (entryPath i) raw = .ok action

/-- An action before a place has the identifier. -/
def Precedes (i : Nat) (id : String) : Prop :=
  ∃ k < i, ∃ action, Parses raws k action ∧ action.id = id

/-- The entry at a place is an action with an identifier that an action before it has. -/
def Repeats (i : Nat) (id : String) : Prop :=
  id ≠ "" ∧ (∃ action, Parses raws i action ∧ action.id = id) ∧ Precedes raws i id

end Entries

section Places

variable {raws : List Value} {i : Nat} {action : Action}

theorem Refuses.path {issue : Issue} (h : Refuses raws i issue) :
    ∃ below, issue.path = some (entryPath i ++ below) := by
  obtain ⟨raw, r, -, hparse, rfl⟩ := h
  obtain ⟨below, hbelow⟩ := Action.refusal_path hparse
  exact ⟨below, congrArg some hbelow⟩

theorem Parses.lt_length (h : Parses raws i action) : i < raws.length := by
  obtain ⟨raw, hraw, -⟩ := h
  exact (List.getElem?_eq_some_iff.mp hraw).1

theorem Parses.unique {other : Action} (h : Parses raws i action) (h' : Parses raws i other) :
    action = other := by
  obtain ⟨raw, hraw, hparse⟩ := h
  obtain ⟨raw', hraw', hparse'⟩ := h'
  cases hraw.symm.trans hraw'
  cases hparse.symm.trans hparse'
  rfl

theorem not_repeats_of_refused {raw : Value} {r : Refusal} (hraw : raws[i]? = some raw)
    (hparse : Action.parse (entryPath i) raw = .error r) (id : String) : ¬ Repeats raws i id := by
  rintro ⟨-, ⟨action, ⟨raw', hraw', hparse'⟩, -⟩, -⟩
  cases hraw.symm.trans hraw'
  cases hparse.symm.trans hparse'

/-- The identifier that is repeated is that of the action. -/
theorem Parses.repeats_iff (h : Parses raws i action) :
    (∃ id, Repeats raws i id) ↔ action.id ≠ "" ∧ Precedes raws i action.id := by
  constructor
  · rintro ⟨id, hne, ⟨other, hother, rfl⟩, hbefore⟩
    rw [h.unique hother]
    exact ⟨hne, hbefore⟩
  · rintro ⟨hne, hbefore⟩
    exact ⟨action.id, hne, ⟨action, h, rfl⟩, hbefore⟩

theorem precedes_succ_of_refused {raw : Value} {r : Refusal} (hraw : raws[i]? = some raw)
    (hparse : Action.parse (entryPath i) raw = .error r) (id : String) :
    Precedes raws (i + 1) id ↔ Precedes raws i id := by
  constructor
  · rintro ⟨k, hk, action, hparses, hid⟩
    rcases Nat.lt_succ_iff_lt_or_eq.mp hk with hk | rfl
    · exact ⟨k, hk, action, hparses, hid⟩
    · obtain ⟨raw', hraw', hparse'⟩ := hparses
      cases hraw.symm.trans hraw'
      cases hparse.symm.trans hparse'
  · rintro ⟨k, hk, hfound⟩
    exact ⟨k, Nat.lt_succ_of_lt hk, hfound⟩

theorem Parses.precedes_succ (h : Parses raws i action) (id : String) :
    Precedes raws (i + 1) id ↔ action.id = id ∨ Precedes raws i id := by
  constructor
  · rintro ⟨k, hk, other, hother, hid⟩
    rcases Nat.lt_succ_iff_lt_or_eq.mp hk with hk | rfl
    · exact .inr ⟨k, hk, other, hother, hid⟩
    · rw [h.unique hother]
      exact .inl hid
  · rintro (hid | ⟨k, hk, hfound⟩)
    · exact ⟨i, Nat.lt_succ_self i, action, h, hid⟩
    · exact ⟨k, Nat.lt_succ_of_lt hk, hfound⟩

section Seen

variable (h : Parses raws i action) {seen : List String}
  (hseen : ∀ id, id ∈ seen ↔ id ≠ "" ∧ Precedes raws i id)

include h hseen

theorem Parses.again_iff :
    (action.id != "" && seen.contains action.id) = true ↔ ∃ id, Repeats raws i id := by
  rw [h.repeats_iff, Bool.and_eq_true, bne_iff_ne, List.contains_iff_mem, hseen]
  exact ⟨fun hboth => hboth.2, fun hboth => ⟨hboth.1, hboth⟩⟩

/-- An identifier that is not empty is seen after its action. -/
theorem Parses.mem_seen_succ_iff (id : String) :
    id ∈ (if action.id != "" then action.id :: seen else seen) ↔
      id ≠ "" ∧ Precedes raws (i + 1) id := by
  rw [h.precedes_succ, and_or_left, ← hseen]
  split
  · rename_i hne
    rw [bne_iff_ne] at hne
    rw [List.mem_cons]
    refine or_congr_left ⟨?_, fun hid => hid.2.symm⟩
    rintro rfl
    exact ⟨hne, rfl⟩
  · rename_i hempty
    rw [bne_iff_ne, not_not] at hempty
    refine (or_iff_right ?_).symm
    rintro ⟨hne, rfl⟩
    exact hne hempty

end Seen

end Places

/-! ## Sorted entries -/

/-- A plan of the entries from a place on. What it holds stands in the order of the entries: errors
of those at some places, actions of those at all others, and warnings of those that repeat. -/
structure Sorts (raws : List Value) (start : Nat) (refused accepted again : List Nat) (p : Plan) :
    Prop where
  places : (refused ++ accepted).Perm (List.range' start (raws.length - start))
  refusedOrder : refused.Pairwise (· < ·)
  acceptedOrder : accepted.Pairwise (· < ·)
  againOrder : again.Pairwise (· < ·)
  errors : List.Forall₂ (Refuses raws) refused p.errors
  actions : List.Forall₂ (Parses raws) accepted p.actions
  repeats : ∀ i, i ∈ again ↔ start ≤ i ∧ ∃ id, Repeats raws i id
  warnings : List.Forall₂ (fun i w => ∃ id, w = repeated i id) again p.warnings

namespace Sorts

variable {raws : List Value} {start : Nat} {refused accepted again : List Nat} {p : Plan}
  {raw : Value}

theorem nothing (h : raws.length ≤ start) : Sorts raws start [] [] [] {} where
  places := by rw [Nat.sub_eq_zero_of_le h, List.range'_zero, List.append_nil]
  refusedOrder := .nil
  acceptedOrder := .nil
  againOrder := .nil
  errors := .nil
  actions := .nil
  repeats := by
    intro i
    refine iff_of_false List.not_mem_nil ?_
    rintro ⟨hi, id, -, ⟨action, hparses, -⟩, -⟩
    exact absurd hparses.lt_length (Nat.not_lt_of_le (Nat.le_trans h hi))
  warnings := .nil

/-- From a place on or from the next one is the same for what this place is not. -/
theorem later_iff {P : Nat → Prop} (hstart : ¬ P start) (i : Nat) :
    start + 1 ≤ i ∧ P i ↔ start ≤ i ∧ P i := by
  refine and_congr_left fun hi => ⟨Nat.le_of_succ_le, fun hle => ?_⟩
  refine Nat.lt_of_le_of_ne hle ?_
  rintro rfl
  exact hstart hi

theorem range'_of_getElem? (hraw : raws[start]? = some raw) :
    List.range' start (raws.length - start) =
      start :: List.range' (start + 1) (raws.length - (start + 1)) := by
  have hlt : start < raws.length := (List.getElem?_eq_some_iff.mp hraw).1
  rw [← List.range'_succ]
  congr 1
  omega

section Next

variable (h : Sorts raws (start + 1) refused accepted again p) (hraw : raws[start]? = some raw)

include h

theorem start_lt {i : Nat} (hi : i ∈ refused ++ accepted) : start < i :=
  (List.mem_range'_1.mp (h.places.subset hi)).1

include hraw

/-- One entry more that is no action. -/
theorem refuse {r : Refusal} (hparse : Action.parse (entryPath start) raw = .error r) :
    Sorts raws start (start :: refused) accepted again
      (({ errors := [r.toIssue .null] } : Plan) ++ p) where
  places := by
    rw [range'_of_getElem? hraw]
    exact h.places.cons start
  refusedOrder := .cons (fun _ hi => h.start_lt (List.mem_append_left _ hi)) h.refusedOrder
  acceptedOrder := h.acceptedOrder
  againOrder := h.againOrder
  errors := .cons ⟨raw, r, hraw, hparse, rfl⟩ h.errors
  actions := h.actions
  repeats := by
    intro i
    rw [h.repeats]
    refine later_iff (P := fun i => ∃ id, Repeats raws i id) ?_ i
    rintro ⟨id, hid⟩
    exact not_repeats_of_refused hraw hparse id hid
  warnings := h.warnings

/-- One entry more that is an action, where it is known which identifiers come before. -/
theorem accept {action : Action} (hparse : Action.parse (entryPath start) raw = .ok action)
    {seen : List String} (hseen : ∀ id, id ∈ seen ↔ id ≠ "" ∧ Precedes raws start id) :
    ∃ again', Sorts raws start refused (start :: accepted) again'
      (ofAction start seen action ++ p) := by
  have hparses : Parses raws start action := ⟨raw, hraw, hparse⟩
  have hplaces : (refused ++ start :: accepted).Perm
      (List.range' start (raws.length - start)) := by
    rw [range'_of_getElem? hraw]
    exact List.perm_middle.trans (h.places.cons start)
  have hordered : (start :: accepted).Pairwise (· < ·) :=
    .cons (fun _ hi => h.start_lt (List.mem_append_right _ hi)) h.acceptedOrder
  have hsplit : (ofAction start seen action ++ p).warnings =
      (ofAction start seen action).warnings ++ p.warnings := rfl
  by_cases hagain : ∃ id, Repeats raws start id
  · have hwarnings : (ofAction start seen action).warnings = [repeated start action.id] :=
      if_pos ((hparses.again_iff hseen).mpr hagain)
    refine ⟨start :: again, hplaces, h.refusedOrder, hordered, ?_, h.errors,
      .cons hparses h.actions, fun i => ?_, ?_⟩
    · exact .cons (fun i hi => ((h.repeats i).mp hi).1) h.againOrder
    · rw [List.mem_cons, h.repeats]
      constructor
      · rintro (rfl | ⟨hi, hid⟩)
        · exact ⟨Nat.le_refl i, hagain⟩
        · exact ⟨Nat.le_of_succ_le hi, hid⟩
      · rintro ⟨hi, hid⟩
        exact (Nat.eq_or_lt_of_le hi).imp Eq.symm fun hlt => ⟨hlt, hid⟩
    · rw [hsplit, hwarnings]
      exact .cons ⟨action.id, rfl⟩ h.warnings
  · have hwarnings : (ofAction start seen action).warnings = [] :=
      if_neg fun hboth => hagain ((hparses.again_iff hseen).mp hboth)
    refine ⟨again, hplaces, h.refusedOrder, hordered, h.againOrder, h.errors,
      .cons hparses h.actions, fun i => ?_, ?_⟩
    · rw [h.repeats]
      exact later_iff (P := fun i => ∃ id, Repeats raws i id) hagain i
    · rw [hsplit, hwarnings]
      exact h.warnings

end Next

end Sorts

/-- The invariant of the loop: at every place those identifiers were seen that come before it. -/
theorem ofEntries_sorts {raws rest : List Value} {start : Nat} {seen : List String}
    (hrest : raws.drop start = rest)
    (hseen : ∀ id, id ∈ seen ↔ id ≠ "" ∧ Precedes raws start id) :
    ∃ refused accepted again,
      Sorts raws start refused accepted again (ofEntries start seen rest) := by
  induction rest generalizing start seen with
  | nil => exact ⟨[], [], [], .nothing (List.drop_eq_nil_iff.mp hrest)⟩
  | cons raw rest ih =>
    have hraw : raws[start]? = some raw := by
      rw [← Nat.add_zero start, ← List.getElem?_drop, hrest]
      rfl
    have hnext : raws.drop (start + 1) = rest := by
      rw [← List.tail_drop, hrest, List.tail_cons]
    rw [ofEntries]
    cases hparse : Action.parse (entryPath start) raw with
    | error r =>
      have hlater : ∀ id, id ∈ seen ↔ id ≠ "" ∧ Precedes raws (start + 1) id := fun id => by
        rw [hseen, precedes_succ_of_refused hraw hparse]
      obtain ⟨refused, accepted, again, hsorts⟩ := ih hnext hlater
      exact ⟨_, _, _, hsorts.refuse hraw hparse⟩
    | ok action =>
      have hparses : Parses raws start action := ⟨raw, hraw, hparse⟩
      obtain ⟨refused, accepted, again, hsorts⟩ := ih hnext (hparses.mem_seen_succ_iff hseen)
      obtain ⟨again', hagain⟩ := hsorts.accept hraw hparse hseen
      exact ⟨_, _, _, hagain⟩

/-! ## Whole lists -/

/-- A plan parts a list: the entries at some places have one error each, at their path or below, and
those at all other places are one action each, both in the order of the list; the plan is right if
there is no error. Every action has what its kind asks for. There is a warning at each place where
an action repeats the identifier of an action before it, and nowhere else. -/
structure Parted (raws : List Value) (plan : Plan) (refused accepted again : List Nat) :
    Prop where
  places : (refused ++ accepted).Perm (List.range raws.length)
  refusedOrder : refused.Pairwise (· < ·)
  acceptedOrder : accepted.Pairwise (· < ·)
  againOrder : again.Pairwise (· < ·)
  errors : List.Forall₂ (fun i (e : Issue) => Refuses raws i e ∧
    ∃ below, e.path = some (entryPath i ++ below)) refused plan.errors
  actions : List.Forall₂ (fun i action => Parses raws i action ∧ action.Sound)
    accepted plan.actions
  count : plan.errors.length + plan.actions.length = raws.length
  ok : plan.ok = true ↔ plan.errors = []
  repeats : ∀ i, i ∈ again ↔ ∃ id, Repeats raws i id
  warnings : List.Forall₂ (fun i (w : Issue) => w.code = .actionIdDuplicate ∧
    w.path = some (entryPath i ++ ".id")) again plan.warnings

theorem ofValue_parted (raws : List Value) :
    ∃ refused accepted again, Parted raws (ofValue (.list raws)) refused accepted again := by
  have hnone : ∀ id, id ∈ ([] : List String) ↔ id ≠ "" ∧ Precedes raws 0 id := by
    intro id
    refine iff_of_false List.not_mem_nil ?_
    rintro ⟨-, k, hk, -⟩
    exact absurd hk (Nat.not_lt_zero k)
  have hwhole : raws.drop 0 = raws := List.drop_zero
  obtain ⟨refused, accepted, again, h⟩ := ofEntries_sorts hwhole hnone
  have hplaces : (refused ++ accepted).Perm (List.range raws.length) := by
    rw [List.range_eq_range']
    exact h.places
  have hlength := hplaces.length_eq
  rw [List.length_append, List.length_range, h.errors.length_eq, h.actions.length_eq] at hlength
  refine ⟨refused, accepted, again, hplaces, h.refusedOrder, h.acceptedOrder, h.againOrder,
    h.errors.imp fun i e he => ⟨he, he.path⟩, h.actions.imp ?_, hlength, List.isEmpty_iff, ?_,
    h.warnings.imp ?_⟩
  · rintro i action ⟨raw, hraw, hparse⟩
    exact ⟨⟨raw, hraw, hparse⟩, Action.parse_sound hparse⟩
  · intro i
    rw [h.repeats, and_iff_right (Nat.zero_le i)]
  · rintro i w ⟨id, rfl⟩
    exact ⟨rfl, rfl⟩

example :
    let alert : Value := .ofFields [("id", .text "a"), ("type", .text "alert")]
    let plan := ofValue (.list [alert, .int 1, alert])
    plan.errors.map Issue.path = [some "$[1]"] ∧ plan.actions.map Action.id = ["a", "a"] ∧
      plan.warnings.map Issue.path = [some "$[2].id"] := by
  decide

/-! ## Limits -/

theorem overrun?_entry_iff {limits : Limits} {raw : Value} :
    Action.overrun? limits raw = none ↔ ∀ w, Action.shown? raw = some w →
      w.fits limits.showing = true ∧ ∀ n, w.HoldsInt n → isShort limits.digits n = true := by
  rw [Action.overrun?, Option.bind_eq_none_iff]
  simp only [Value.overrun?_eq_none_iff]

/-- Within limits a list has a plan just if every value that is shown in the message of a refusal
nests no deeper than can be shown and has no integer of too many digits; and the plan parts the
list. -/
theorem ofValueWithin_partitions (limits : Limits) (raws : List Value) :
    ((∃ plan, ofValueWithin limits (.list raws) = .ok plan) ↔
      ∀ raw ∈ raws, ∀ w, Action.shown? raw = some w →
        w.fits limits.showing = true ∧ ∀ n, w.HoldsInt n → isShort limits.digits n = true) ∧
    ∀ plan, ofValueWithin limits (.list raws) = .ok plan →
      ∃ refused accepted again, Parted raws plan refused accepted again := by
  have hnone : overrun? limits (.list raws) = none ↔ ∀ raw ∈ raws, ∀ w,
      Action.shown? raw = some w → w.fits limits.showing = true ∧
        ∀ n, w.HoldsInt n → isShort limits.digits n = true := by
    rw [overrun?, List.findSome?_eq_none_iff]
    simp only [overrun?_entry_iff]
  rw [← hnone]
  unfold ofValueWithin
  cases overrun? limits (.list raws) with
  | some e => simp
  | none =>
    refine ⟨iff_of_true ⟨_, rfl⟩ rfl, fun plan hplan => ?_⟩
    cases hplan
    exact ofValue_parted raws

/-- An action whose type is an integer of 4301 digits, which the message of its refusal would show:
there is no plan at all. -/
theorem ofValueWithin_overlong :
    ofValueWithin .usual (.list [.ofFields [("type", .ofNat (Nat.pow 10 4300))]]) = .error .digits := by
  have hshown : Action.shown? (.ofFields [("type", .ofNat (Nat.pow 10 4300))]) =
      some (.ofNat (Nat.pow 10 4300)) := rfl
  have hlong : (Value.ofNat (Nat.pow 10 4300)).overrun? Limits.usual.digits Limits.usual.showing =
      some .digits := Value.overrun?_eq_digits rfl .here (isShort_pow 4300)
  have hover : overrun? .usual (.list [.ofFields [("type", .ofNat (Nat.pow 10 4300))]]) =
      some .digits := by
    rw [overrun?, List.findSome?_cons, Action.overrun?, hshown, Option.bind_some, hlong]
  rw [ofValueWithin, hover]

end PageBuilder.Plan
