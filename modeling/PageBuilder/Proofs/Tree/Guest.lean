import PageBuilder.Proofs.Tree.Cells

/-!
Settling in place.

* `Underway`: what is so of the memory all along;
* `settleIn_follows`: settling in place comes to what settling the value comes to, with the same
  draws and the same identifiers in use, however often a node is listed;
* `Underway.read`: what is read from the memory then;
* `settleIn_once`: if no node is listed twice, that is the value as it is settled;
* `Guest.settle_cases`: a guest is settled or fails as its value does.
-/

namespace PageBuilder

open PageBuilder.Fresh (Unsettled Desk childListed? entered field_entered identify inTurn kept?
  settle settleAll settleBelow settleIn settle_of_identify settle_of_kind settle_of_unfit withProps)
open PageBuilder.Tree (nodes nodesOf nodes_eq nodesOf_nil nodesOf_singleton)

/-! ## Memory -/

namespace Memory

variable {m : Memory} {room n : Nat} {x : Member} {v : Value}

@[simp] theorem put_self (c : Cell) : m.put n c n = c := if_pos rfl

@[simp] theorem put_of_ne {k : Nat} (h : k ≠ n) (c : Cell) : m.put n c k = m k := if_neg h

theorem put_put (c c' : Cell) : (m.put n c).put n c' = m.put n c' := by
  funext k
  by_cases hk : k = n
  · rw [hk, put_self, put_self]
  · rw [put_of_ne hk, put_of_ne hk, put_of_ne hk]

theorem value?_other {w : Value} (hw : w.isObject = false) :
    m.value? room (.other w hw) = some w := by
  cases room <;> rfl

theorem value?_object_eq_some_iff :
    m.value? (room + 1) (.object n) = some v ↔
      ∃ items, List.Forall₂ (fun x w => m.value? room x = some w) (m n).listed items ∧
        v = (m n).value items := by
  rw [value?, Option.map_eq_some_iff]
  constructor
  · rintro ⟨items, hitems, rfl⟩
    exact ⟨items, mapM_eq_some_iff.mp hitems, rfl⟩
  · rintro ⟨items, hitems, rfl⟩
    exact ⟨items, mapM_eq_some_iff.mpr hitems, rfl⟩

end Memory

theorem update_eq_some_iff {ids : Nat → Option String} {n k : Nat} {id id' : String} :
    Function.update ids n (some id) k = some id' ↔ k = n ∧ id' = id ∨ k ≠ n ∧ ids k = some id' := by
  by_cases hk : k = n
  · simp [hk, eq_comm]
  · simp [hk]

/-- What is so of the memory all along, beside what it was in the beginning: a node that had no turn
is as it was, and one that had is under the identifier of its last turn. No two nodes are under one
identifier, and a node that had a turn can not keep the identifier that it had in the beginning. -/
structure Underway (m₀ : Memory) (ids : Nat → Option String) (d : Desk) : Prop where
  same : ∀ n, ids n = none → d.memory n = m₀ n
  turned : ∀ n id, ids n = some id → Turned (m₀ n) (d.memory n) id
  inUse : ∀ n id, ids n = some id → id ∈ d.allotment.used
  spent : ∀ n id, ids n = some id →
    kept? d.allotment.used (Fields.field (m₀ n).fields "id") = none
  apart : ∀ n k id, ids n = some id → ids k = some id → n = k

section Underway

variable {m₀ : Memory} {ids : Nat → Option String} {d : Desk} (h : Underway m₀ ids d) (n : Nat)

include h

theorem Underway.like : d.memory n = m₀ n ∨ ∃ before, Turned (m₀ n) (d.memory n) before := by
  cases hn : ids n with
  | none => exact .inl (h.same n hn)
  | some before => exact .inr ⟨before, h.turned n before hn⟩

theorem Underway.kind? : (Value.object (d.memory n).fields).kind? =
    (Value.object (m₀ n).fields).kind? := by
  rcases h.like n with heq | ⟨before, hturned⟩
  · rw [heq]
  · rw [Value.kind?, Value.field, hturned.typed, Value.kind?, Value.field]

/-- A node that had a turn is fit, so an unfit one is as it was in the beginning. -/
theorem Underway.first_of_unfit (hc : (Value.object (m₀ n).fields).isContainer = true)
    (hnull : (Fields.field (m₀ n).fields "children").isNull = false)
    (hlist : (m₀ n).hasList = false) : d.memory n = m₀ n := by
  rcases h.like n with heq | ⟨before, hturned⟩
  · exact heq
  · rcases hturned.fit hc with hfit | hfit
    · rw [hnull] at hfit
      cases hfit
    · rw [hlist] at hfit
      cases hfit

/-- A node can keep its identifier just if it can keep the one that it had in the beginning. -/
theorem Underway.kept? : Fresh.kept? d.allotment.used (Fields.field (d.memory n).fields "id") =
    Fresh.kept? d.allotment.used (Fields.field (m₀ n).fields "id") := by
  cases hn : ids n with
  | none => rw [h.same n hn]
  | some id => rw [(h.turned n id hn).named, kept?_of_mem (h.inUse n id hn), h.spent n id hn]

/-- After a turn. -/
theorem Underway.put {id : String} {b : Allotment} {c : Cell} (hturned : Turned (m₀ n) c id)
    (hnew : id ∉ d.allotment.used) (hused : b.used = id :: d.allotment.used)
    (hspent : Fresh.kept? b.used (Fields.field (m₀ n).fields "id") = none) :
    Underway m₀ (Function.update ids n (some id)) ⟨d.memory.put n c, b⟩ := by
  have hsub : d.allotment.used ⊆ b.used := hused ▸ List.subset_cons_self ..
  constructor
  · intro k hk
    by_cases hkn : k = n
    · rw [hkn, Function.update_self] at hk
      cases hk
    · rw [Function.update_of_ne hkn] at hk
      exact (Memory.put_of_ne hkn c).trans (h.same k hk)
  · intro k id' hk
    rcases update_eq_some_iff.mp hk with ⟨rfl, rfl⟩ | ⟨hkn, hk⟩
    · simpa only [Memory.put_self] using hturned
    · simpa only [Memory.put_of_ne hkn] using h.turned k id' hk
  · intro k id' hk
    rcases update_eq_some_iff.mp hk with ⟨-, rfl⟩ | ⟨-, hk⟩
    · exact hused ▸ List.mem_cons_self ..
    · exact hsub (h.inUse k id' hk)
  · intro k id' hk
    rcases update_eq_some_iff.mp hk with ⟨rfl, -⟩ | ⟨-, hk⟩
    · exact hspent
    · exact kept?_mono (h.spent k id' hk) hsub
  · intro k l id' hk hl
    rcases update_eq_some_iff.mp hk with ⟨rfl, rfl⟩ | ⟨-, hold⟩ <;>
      rcases update_eq_some_iff.mp hl with ⟨rfl, hid⟩ | ⟨-, hold'⟩
    · rfl
    · exact absurd (h.inUse l _ hold') hnew
    · exact absurd (hid ▸ h.inUse k _ hold) hnew
    · exact h.apart k l id' hold hold'

end Underway

/-! ## Settling in place and settling the value -/

/-- From one time to a later one: the nodes of some names had turns, and no others, and each turn
put one identifier into use. -/
structure Advances (names : List Nat) (ids ids' : Nat → Option String) (d d' : Desk) : Prop where
  others : ∀ n, n ∉ names → ids' n = ids n ∧ d'.memory n = d.memory n
  turns : ∀ n ∈ names, (ids' n).isSome
  grown : d'.allotment.used.length = d.allotment.used.length + names.length

namespace Advances

variable {names more : List Nat} {ids ids' ids'' : Nat → Option String} {d d' d'' : Desk}

theorem nil : Advances [] ids ids d d := ⟨fun _ _ => ⟨rfl, rfl⟩, List.forall_mem_nil _, rfl⟩

theorem append (h : Advances names ids ids' d d') (hmore : Advances more ids' ids'' d' d'') :
    Advances (names ++ more) ids ids'' d d'' := by
  constructor
  · intro n hn
    rw [List.mem_append, not_or] at hn
    obtain ⟨hid, hmem⟩ := hmore.others n hn.2
    rw [hid, hmem]
    exact h.others n hn.1
  · intro n hn
    by_cases hn' : n ∈ more
    · exact hmore.turns n hn'
    · rw [(hmore.others n hn').1]
      exact h.turns n ((List.mem_append.mp hn).resolve_right hn')
  · rw [hmore.grown, h.grown, List.length_append, Nat.add_assoc]

theorem single (n : Nat) {id : String} (c : Cell) {b : Allotment}
    (hused : b.used = id :: d.allotment.used) :
    Advances [n] ids (Function.update ids n (some id)) d ⟨d.memory.put n c, b⟩ := by
  constructor
  · intro k hk
    rw [List.mem_singleton] at hk
    exact ⟨Function.update_of_ne hk .., Memory.put_of_ne hk c⟩
  · intro k hk
    rw [List.mem_singleton] at hk
    rw [hk, Function.update_self]
    rfl
  · exact (congrArg List.length hused).trans (List.length_cons ..)

end Advances

/-- What settling some nodes in place comes to, beside settling their values: the same, with the
same draws and identifiers in use. -/
structure Follows {α : Type} (m₀ : Memory) (names : List Nat) (ids : Nat → Option String)
    (d : Desk) (r : Except Unsettled Unit × Desk) (s : Except Unsettled α × Allotment) :
    Prop where
  outcome : r.1 = s.1.map fun _ => ()
  allotment : r.2.allotment = s.2
  kept : r.1 = .ok () → ∃ ids', Underway m₀ ids' r.2 ∧ Advances names ids ids' d r.2

section Settling

variable {source : IdSource} {m₀ : Memory} {ids : Nat → Option String} {d : Desk}

/-- A member whose work follows the settling of a value, from whatever is kept. -/
def Tracks (source : IdSource) (m₀ : Memory) (names : Member → List Nat)
    (f : Member → Desk → Except Unsettled Unit × Desk) (x : Member) (v : Value) : Prop :=
  ∀ ids d, Underway m₀ ids d →
    Follows m₀ (names x) ids d (f x d) (settle source v d.allotment)

theorem inTurn_follows {names : Member → List Nat}
    {f : Member → Desk → Except Unsettled Unit × Desk} {xs : List Member} {vs : List Value}
    (hf : List.Forall₂ (Tracks source m₀ names f) xs vs) (h : Underway m₀ ids d) :
    Follows m₀ (xs.flatMap names) ids d (inTurn f xs d)
      (settleAll source vs d.allotment) := by
  induction hf generalizing ids d with
  | nil =>
    rw [inTurn, settleAll]
    exact ⟨rfl, rfl, fun _ => ⟨ids, h, .nil⟩⟩
  | @cons x v xs vs hx _ ih =>
    obtain ⟨houtcome, hallotment, hkept⟩ := hx ids d h
    rw [inTurn, settleAll]
    rcases hr : f x d with ⟨e | ⟨⟩, d₁⟩ <;>
      rcases hs : settle source v d.allotment with ⟨e' | item, b⟩ <;>
      rw [hr, hs] at houtcome <;> cases houtcome <;> rw [hr, hs] at hallotment
    · exact ⟨rfl, hallotment, fun h => by cases h⟩
    · rw [hr] at hkept
      obtain ⟨ids', hids, hadvances⟩ := hkept rfl
      obtain ⟨houtcome, hall, hkept⟩ := ih hids
      rw [hallotment] at houtcome hall
      simp only
      rcases hrest : settleAll source vs b with ⟨e | items, b'⟩ <;>
        rw [hrest] at houtcome hall
      · exact ⟨houtcome, hall, fun hok => by rw [houtcome] at hok; cases hok⟩
      · refine ⟨houtcome, hall, fun hok => ?_⟩
        obtain ⟨ids'', hids', hmore⟩ := hkept hok
        exact ⟨ids'', hids', hadvances.append hmore⟩

theorem settleIn_of_unfit {room n : Nat} (hnone : ∀ kind,
    (Value.object (d.memory n).fields).kind? = some kind → kind = .page) :
    settleIn source (room + 1) (.object n) d = (.error .unfit, d) := by
  unfold settleIn
  simp only
  split
  · rfl
  · rename_i kind hkind
    obtain ⟨htyped, hne⟩ := Fresh.insertable?_eq_some_iff.mp hkind
    exact absurd (hnone kind htyped) hne

/-- A node in its turn, and then what it has listed. -/
theorem settleIn_of_kind {room n : Nat} {kind : ComponentKind}
    (htyped : (Value.object (d.memory n).fields).kind? = some kind) (hne : kind ≠ .page) :
    settleIn source (room + 1) (.object n) d =
      match identify source kind (d.memory n).fields d.allotment with
      | (.error e, b) => (.error e, { d with allotment := b })
      | (.ok named, b) =>
        let c : Cell := { d.memory n with fields := withProps named }
        match childListed? kind c with
        | none => (.error .unfit, ⟨d.memory.put n c, b⟩)
        | some c => inTurn (settleIn source room) c.listed ⟨d.memory.put n c, b⟩ := by
  have hkind : ComponentKind.insertable? (Fields.field (d.memory n).fields "type") = some kind :=
    Fresh.insertable?_eq_some_iff.mpr ⟨htyped, hne⟩
  rw [settleIn]
  simp only [hkind]
  rcases identify source kind (d.memory n).fields d.allotment with ⟨e | named, b⟩
  · rfl
  · simp only [Desk.put]
    cases childListed? kind { d.memory n with fields := withProps named } with
    | none => rfl
    | some c => simp only [Memory.put_put]

theorem follows_error {α : Type} {names : List Nat} {e : Unsettled} {d' : Desk}
    {r : Except Unsettled Unit × Desk} {s : Except Unsettled α × Allotment}
    (hr : r = (.error e, d')) (hs : s = (.error e, d'.allotment)) :
    Follows m₀ names ids d r s := by
  subst hr hs
  exact ⟨rfl, rfl, fun h => by cases h⟩

/-- A turn, and what follows it. -/
theorem Follows.node {α β : Type} {n : Nat} {id : String} {c : Cell} {b : Allotment}
    {names : List Nat} {r : Except Unsettled Unit × Desk} {s : Except Unsettled α × Allotment}
    (h : Follows m₀ names (Function.update ids n (some id)) ⟨d.memory.put n c, b⟩ r s)
    (hused : b.used = id :: d.allotment.used) (g : α → β) :
    Follows m₀ (n :: names) ids d r (s.1.map g, s.2) := by
  obtain ⟨houtcome, hallotment, hkept⟩ := h
  have hadvances (hok : r.1 = .ok ()) :
      ∃ ids', Underway m₀ ids' r.2 ∧ Advances (n :: names) ids ids' d r.2 := by
    obtain ⟨ids', hids, hmore⟩ := hkept hok
    exact ⟨ids', hids, (Advances.single n c hused).append hmore⟩
  rcases s with ⟨e | x, b⟩
  · exact ⟨houtcome, hallotment, hadvances⟩
  · exact ⟨houtcome, hallotment, hadvances⟩

/-- The values of what is taken in, beside their members. -/
theorem forall₂_taken {R : Member → Value → Prop} {c : Cell} {items : List Value}
    (h : List.Forall₂ R c.listed items) : List.Forall₂ R c.taken (c.takenOf items) := by
  unfold Cell.taken Cell.takenOf
  split
  · exact h
  · exact .nil

theorem settle_other {w : Value} (hw : w.isObject = false) (a : Allotment) :
    settle source w a = (.error .unfit, a) := by
  refine settle_of_unfit (fun kind hkind => ?_) source a
  cases w with
  | object fields => cases hw
  | _ => cases hkind

/-- A node that is unfit for what it has for children. -/
theorem settleBelow_unfit {c : Cell} {kind : ComponentKind} {items : List Value} {fields : Fields}
    {b : Allotment} (hc : kind.isContainer = true)
    (hnull : (Fields.field c.fields "children").isNull = false) (hlist : c.hasList = false) :
    settleBelow source kind fields (c.value items) b = (.error .unfit, b) := by
  have hnone : (Value.object c.fields).childList? = none := by simpa [Cell.hasList] using hlist
  rw [Cell.value_of_unlisted hlist, settleBelow, hc, if_neg (by decide), Value.field, hnull,
    if_neg (by decide), hnone]
  rfl

/-- The turn of a node, in place and as a value: either it fails both ways, or both go on with what
is taken in with it. In its first turn the node is made to the same both ways. -/
theorem exists_turn (source : IdSource) (room : Nat) (h : Underway m₀ ids d) {n : Nat}
    {items : List Value} (hlength : items.length = (m₀ n).listed.length) :
    (∃ e d', settleIn source (room + 1) (.object n) d = (.error e, d') ∧
      settle source ((m₀ n).value items) d.allotment = (.error e, d'.allotment)) ∨
    ∃ id b c c', b.used = id :: d.allotment.used ∧
      Underway m₀ (Function.update ids n (some id)) ⟨d.memory.put n c, b⟩ ∧
      (ids n = none → c = c') ∧ c.listed = (m₀ n).taken ∧
      settleIn source (room + 1) (.object n) d =
        inTurn (settleIn source room) (m₀ n).taken ⟨d.memory.put n c, b⟩ ∧
      settle source ((m₀ n).value items) d.allotment =
        ((settleAll source ((m₀ n).takenOf items) b).1.map c'.value,
          (settleAll source ((m₀ n).takenOf items) b).2) := by
  rcases Fresh.unfit_or_typed ((m₀ n).value items) with hunfit | ⟨fields, kind, hvalue, htyped, hne⟩
  · refine .inl ⟨.unfit, d, settleIn_of_unfit ?_, settle_of_unfit hunfit source _⟩
    rw [h.kind?, ← Cell.kind?_value]
    exact hunfit
  · have hkind : (Value.object (m₀ n).fields).kind? = some kind := by
      rw [← Cell.kind?_value, hvalue, htyped]
    have hown : ((m₀ n).value items).field "id" = Fields.field (m₀ n).fields "id" :=
      Cell.field_value (by decide)
    rw [hvalue, Value.field] at hown
    have hkept := h.kept? n
    rw [← hown] at hkept
    rw [settleIn_of_kind ((h.kind? n).trans hkind) hne, hvalue]
    rcases identify_alike source kind hkept with
      ⟨id, b, hnew, hused, hspent, hpure, hplace⟩ | ⟨b, hpure, hplace⟩
    · rw [settle_of_identify htyped hne hpure, hplace, ← hvalue]
      by_cases hfit : kind.isContainer →
          (Fields.field (m₀ n).fields "children").isNull ∨ (m₀ n).hasList
      · obtain ⟨c, hc, hturned⟩ := exists_turned (h.like n) hkind hfit id
        obtain ⟨c', hc', -⟩ := exists_turned (.inl rfl) hkind hfit id
        have hplaced : childListed? kind { d.memory n with
            fields := withProps (Fields.set (d.memory n).fields "id" (.text id)) } = some c := hc
        refine .inr ⟨id, b, c, c', hused, h.put n hturned hnew hused (hown ▸ hspent), fun hn => ?_,
          hturned.listed, ?_, settleBelow_value hvalue hlength hkind hc'⟩
        · rw [h.same n hn, hc'] at hc
          exact (Option.some.inj hc).symm
        · simp only [hplaced]
          rw [hturned.listed]
      · rw [Classical.not_imp, not_or, Bool.not_eq_true, Bool.not_eq_true] at hfit
        obtain ⟨hc, hnull, hlist⟩ := hfit
        have hfirst := h.first_of_unfit n ((Tree.isContainer_eq hkind).trans hc) hnull hlist
        have hentered : Fields.field (entered id (m₀ n).fields) "children" =
            Fields.field (m₀ n).fields "children" := field_entered (by decide) (by decide)
        have hplaced : childListed? kind { m₀ n with
            fields := withProps (Fields.set (m₀ n).fields "id" (.text id)) } = none :=
          childListed?_of_unfit hc (hentered ▸ hnull) (hasList_entered.trans hlist)
        simp only [hfirst, hplaced]
        exact .inl ⟨.unfit, _, rfl, settleBelow_unfit hc hnull hlist⟩
    · rw [settle_of_kind htyped hne, hpure, hplace]
      exact .inl ⟨.drawsExhausted, _, rfl, rfl⟩

/-- Settling in place comes to what settling the value comes to. -/
theorem settleIn_follows (source : IdSource) (m₀ : Memory) (room : Nat) {x : Member} {v : Value}
    (hv : m₀.value? room x = some v) :
    Tracks source m₀ (m₀.names room) (settleIn source room) x v := by
  induction room generalizing x v with
  | zero =>
    intro ids d _
    cases x with
    | other w hw =>
      cases hv
      exact follows_error rfl (settle_other hw _)
    | object n => cases hv
  | succ room ih =>
    intro ids d h
    cases x with
    | other w hw =>
      cases hv
      exact follows_error rfl (settle_other hw _)
    | object n =>
      obtain ⟨items, hitems, rfl⟩ := Memory.value?_object_eq_some_iff.mp hv
      rcases exists_turn source room h hitems.length_eq.symm with
        ⟨e, d', hplace, hvalue⟩ | ⟨id, b, c, c', hused, hafter, -, -, hplace, hvalue⟩
      · exact follows_error hplace hvalue
      · have htracks := (forall₂_taken hitems).imp fun _ _ hx => ih hx
        rw [hplace, hvalue, Memory.names]
        exact (inTurn_follows htracks hafter).node hused c'.value

/-! ## What is read -/

theorem mapM_congr {α β : Type} {f g : α → Option β} {xs : List α} (h : ∀ x ∈ xs, f x = g x) :
    xs.mapM f = xs.mapM g := by
  induction xs with
  | nil => rfl
  | cons x rest ih =>
    rw [List.forall_mem_cons] at h
    rw [List.mapM_cons, List.mapM_cons, h.1, ih h.2]

section Reading

variable {room : Nat} {x : Member}

/-- The values of some members, with the identifiers of all nodes in them. -/
theorem exists_values {P : Member → Value → Prop} {names : Member → List Nat} {idOf : Nat → Value}
    {xs : List Member} (h : ∀ x ∈ xs, ∃ v, P x v ∧
      (nodesOf [v]).map (fun n => n.field "id") = (names x).map idOf) :
    ∃ vs, List.Forall₂ P xs vs ∧
      (nodesOf vs).map (fun n => n.field "id") = (xs.flatMap names).map idOf := by
  induction xs with
  | nil => exact ⟨[], .nil, by simp⟩
  | cons x rest ih =>
    rw [List.forall_mem_cons] at h
    obtain ⟨v, hv, hids⟩ := h.1
    obtain ⟨vs, hvs, hrest⟩ := ih h.2
    refine ⟨v :: vs, .cons hv hvs, ?_⟩
    have hnodes : nodesOf (v :: vs) = nodesOf [v] ++ nodesOf vs := Tree.nodesOf_append [v] vs
    rw [hnodes, List.map_append, hids, hrest, List.flatMap_cons, List.map_append]

theorem isSome_of_forall₂ {α β : Type} {f : α → Option β} {xs : List α} {ys : List β}
    (h : List.Forall₂ (fun x y => f x = some y) xs ys) : ∀ x ∈ xs, (f x).isSome := by
  induction h with
  | nil => exact List.forall_mem_nil _
  | cons hx _ ih => exact List.forall_mem_cons.mpr ⟨Option.isSome_iff_exists.mpr ⟨_, hx⟩, ih⟩

theorem nodesOf_other {w : Value} (hw : w.isObject = false) : nodesOf [w] = [] := by
  rw [nodesOf, if_neg (by simp [hw]), nodesOf_nil]

/-- Where all nodes that are taken in with a member had turns, it is read with them under their
identifiers, each as often as it is listed. -/
theorem Underway.read (h : Underway m₀ ids d) (hv : (m₀.value? room x).isSome)
    (hall : ∀ n ∈ m₀.names room x, (ids n).isSome) :
    ∃ v, d.memory.value? room x = some v ∧ (nodesOf [v]).map (fun n => n.field "id") =
      (m₀.names room x).map fun n => Fields.field (d.memory n).fields "id" := by
  induction room generalizing x with
  | zero =>
    cases x with
    | other w hw => exact ⟨w, rfl, by simp [nodesOf_other hw, Memory.names]⟩
    | object n => cases hv
  | succ room ih =>
    cases x with
    | other w hw => exact ⟨w, rfl, by simp [nodesOf_other hw, Memory.names]⟩
    | object n =>
      obtain ⟨v, hv⟩ := Option.isSome_iff_exists.mp hv
      obtain ⟨items, hitems, -⟩ := Memory.value?_object_eq_some_iff.mp hv
      rw [Memory.names, List.forall_mem_cons] at hall
      obtain ⟨id, hid⟩ := Option.isSome_iff_exists.mp hall.1
      have hlisted := (h.turned n id hid).listed
      have hsome := isSome_of_forall₂ hitems
      obtain ⟨vs, hvs, hids⟩ := exists_values
        (P := fun x v => d.memory.value? room x = some v)
        fun y hy => ih (hsome y (Cell.taken_subset hy)) fun k hk =>
          hall.2 k (List.mem_flatMap.mpr ⟨y, hy, hk⟩)
      rw [← hlisted] at hvs
      refine ⟨(d.memory n).value vs, Memory.value?_object_eq_some_iff.mpr ⟨vs, hvs, rfl⟩, ?_⟩
      rw [nodesOf_singleton rfl, nodes_eq, List.map_cons, Cell.children_value hvs.length_eq.symm,
        Cell.field_value (by decide), hids, Memory.names, List.map_cons]

/-- Nodes that had turns are under texts for identifiers, and no two of them under the same. -/
theorem Underway.exists_texts (h : Underway m₀ ids d) {names : List Nat}
    (hall : ∀ n ∈ names, (ids n).isSome) : ∃ idOf : Nat → String,
      (∀ n ∈ names, Fields.field (d.memory n).fields "id" = .text (idOf n)) ∧
      ∀ n ∈ names, ∀ k ∈ names, idOf n = idOf k → n = k := by
  have hid : ∀ n ∈ names, ids n = some ((ids n).getD "") := by
    intro n hn
    obtain ⟨id, hid⟩ := Option.isSome_iff_exists.mp (hall n hn)
    rw [hid, Option.getD_some]
  refine ⟨fun n => (ids n).getD "", fun n hn => (h.turned n _ (hid n hn)).named, ?_⟩
  intro n hn k hk heq
  have hk' : ids k = some ((ids n).getD "") := (hid k hk).trans (congrArg some heq.symm)
  exact h.apart n k _ (hid n hn) hk'

/-- What is read depends on the nodes that are taken in only. -/
theorem Underway.value?_congr (h : Underway m₀ ids d) {m : Memory}
    (hall : ∀ n ∈ m₀.names room x, (ids n).isSome)
    (hm : ∀ n ∈ m₀.names room x, m n = d.memory n) :
    m.value? room x = d.memory.value? room x := by
  induction room generalizing x with
  | zero => cases x <;> rfl
  | succ room ih =>
    cases x with
    | other w hw => rfl
    | object n =>
      rw [Memory.names, List.forall_mem_cons] at hall hm
      obtain ⟨id, hid⟩ := Option.isSome_iff_exists.mp hall.1
      have hlisted := (h.turned n id hid).listed
      rw [Memory.value?, Memory.value?, hm.1, hlisted]
      congr 1
      refine mapM_congr fun y hy => ih (fun k hk => ?_) fun k hk => ?_
      · exact hall.2 k (List.mem_flatMap.mpr ⟨y, hy, hk⟩)
      · exact hm.2 k (List.mem_flatMap.mpr ⟨y, hy, hk⟩)

end Reading

/-! ## Nodes that are listed once -/

section Once

variable {room : Nat} {b : Allotment}

/-- A member that is read as it is settled as a value, if its nodes had no turn before and none of
them is listed twice. -/
def Reads (source : IdSource) (m₀ : Memory) (room : Nat) (x : Member) (v : Value) : Prop :=
  ∀ ids d item b, Underway m₀ ids d → (∀ n ∈ m₀.names room x, ids n = none) →
    (m₀.names room x).Nodup → settle source v d.allotment = (.ok item, b) →
    (settleIn source room x d).2.memory.value? room x = some item

theorem inTurn_once {xs : List Member} {vs items : List Value}
    (hvs : List.Forall₂ (fun x v => m₀.value? room x = some v ∧ Reads source m₀ room x v) xs vs)
    (h : Underway m₀ ids d) (hnew : ∀ n ∈ xs.flatMap (m₀.names room), ids n = none)
    (honce : (xs.flatMap (m₀.names room)).Nodup)
    (hs : settleAll source vs d.allotment = (.ok items, b)) :
    List.Forall₂ (fun x w => (inTurn (settleIn source room) xs d).2.memory.value? room x = some w)
      xs items := by
  induction hvs generalizing ids d items with
  | nil =>
    rw [(Fresh.settleAll_nil hs).1]
    exact .nil
  | @cons x v xs vs hx hxs ih =>
    obtain ⟨first, others, c, hfirst, hothers, rfl⟩ := Fresh.settleAll_cons hs
    rw [List.flatMap_cons] at hnew honce
    obtain ⟨hxonce, hrestonce, hapart⟩ := List.nodup_append.mp honce
    rw [List.forall_mem_append] at hnew
    have hread := hx.2 ids d first c h hnew.1 hxonce hfirst
    obtain ⟨houtcome, hallotment, hkept⟩ := settleIn_follows source m₀ room hx.1 ids d h
    rw [hfirst] at houtcome hallotment
    obtain ⟨ids', hids, hadvances⟩ := hkept houtcome
    rcases hr : settleIn source room x d with ⟨e | ⟨⟩, d'⟩
    · rw [hr] at houtcome
      cases houtcome
    · rw [hr] at hread hallotment hids hadvances
      simp only at hread hallotment hids hadvances
      rw [← hallotment] at hothers
      have hnew' : ∀ n ∈ xs.flatMap (m₀.names room), ids' n = none := by
        intro n hn
        rw [(hadvances.others n fun hmem => hapart n hmem n hn rfl).1]
        exact hnew.2 n hn
      have hrest := ih hids hnew' hrestonce hothers
      have htracks := hxs.imp fun _ _ hy => settleIn_follows source m₀ room hy.1
      obtain ⟨hall, -, hlater⟩ := inTurn_follows htracks hids
      rw [hothers] at hall
      obtain ⟨ids'', -, hmore⟩ := hlater hall
      rw [inTurn, hr]
      refine .cons ?_ hrest
      -- those beside it have left its nodes alone
      rw [← hread]
      refine hids.value?_congr hadvances.turns fun n hn => ?_
      exact (hmore.others n fun hmem => hapart n hn n hmem rfl).2

/-- If no node is listed twice, what is read in the end is the value as it is settled. -/
theorem settleIn_once {x : Member} {v : Value} (hv : m₀.value? room x = some v) :
    Reads source m₀ room x v := by
  induction room generalizing x v with
  | zero =>
    intro ids d item b _ _ _ hs
    cases x with
    | other w hw =>
      cases hv
      rw [settle_other hw] at hs
      cases hs
    | object n => cases hv
  | succ room ih =>
    intro ids d item b h hnew honce hs
    cases x with
    | other w hw =>
      cases hv
      rw [settle_other hw] at hs
      cases hs
    | object n =>
      obtain ⟨items, hitems, rfl⟩ := Memory.value?_object_eq_some_iff.mp hv
      rcases exists_turn source room h hitems.length_eq.symm with
        ⟨e, d', -, hvalue⟩ | ⟨id, b', c, c', -, hafter, hfirst, hlisted, hplace, hvalue⟩
      · rw [hs] at hvalue
        cases hvalue
      · rw [Memory.names, List.forall_mem_cons] at hnew
        rw [Memory.names, List.nodup_cons] at honce
        obtain rfl := hfirst hnew.1
        rw [hs] at hvalue
        rcases hall : settleAll source ((m₀ n).takenOf items) b' with ⟨e | stored, b''⟩
        · rw [hall] at hvalue
          cases hvalue
        · rw [hall] at hvalue
          cases hvalue
          have htaken := (forall₂_taken hitems).imp fun _ _ hx => And.intro hx (ih hx)
          have hnew' : ∀ k ∈ (m₀ n).taken.flatMap (m₀.names room),
              Function.update ids n (some id) k = none := by
            intro k hk
            rw [Function.update_of_ne fun heq : k = n => honce.1 (heq ▸ hk)]
            exact hnew.2 k hk
          have hbelow := inTurn_once htaken hafter hnew' honce.2 hall
          -- those below have left the node alone
          have htracks := (forall₂_taken hitems).imp fun _ _ hx =>
            settleIn_follows source m₀ room hx
          obtain ⟨houtcome, -, hkept⟩ := inTurn_follows htracks hafter
          rw [hall] at houtcome
          obtain ⟨ids', -, hadvances⟩ := hkept houtcome
          have hself : (inTurn (settleIn source room) (m₀ n).taken
              ⟨d.memory.put n c, b'⟩).2.memory n = c :=
            (hadvances.others n honce.1).2.trans (Memory.put_self c)
          rw [hplace, Memory.value?_object_eq_some_iff, hself, hlisted]
          exact ⟨stored, hbelow, rfl⟩

end Once

end Settling

/-! ## Guests -/

namespace Guest

variable (g : Guest)

theorem value?_eq : g.memory.value? g.room g.top = some g.value := (Option.some_get g.finite).symm

/-- What is settled as a value is an object. -/
theorem exists_object {source : IdSource} {a b : Allotment} {item : Value}
    (h : Fresh.settle source g.value a = (.ok item, b)) : ∃ n, g.top = .object n := by
  cases htop : g.top with
  | object n => exact ⟨n, rfl⟩
  | other w hw =>
    have hvalue := g.value?_eq
    rw [htop, Memory.value?_other hw] at hvalue
    rw [← Option.some.inj hvalue, settle_other hw] at h
    cases h

theorem underway_start (a : Allotment) : Underway g.memory (fun _ => none) ⟨g.memory, a⟩ where
  same _ _ := rfl
  turned _ _ h := by cases h
  inUse _ _ h := by cases h
  spent _ _ h := by cases h
  apart _ _ _ h := by cases h

/-- A guest that is inserted, beside its value that is: with the same identifiers in use, one more
for each time that a node is listed. The nodes are under identifiers that are all different just if
none is listed twice, and then it is the same that is stored. -/
structure Stored (source : IdSource) (a : Allotment) (item stored : Value) (b : Allotment) :
    Prop where
  value : Fresh.settle source g.value a = (.ok item, b)
  settled : g.settle source a = (.ok stored, b)
  isObject : stored.isObject
  length : (nodes stored).length = g.names.length
  grown : b.used.length = a.used.length + g.names.length
  named : ∃ texts : List String, (nodes stored).map (fun n => n.field "id") = texts.map .text ∧
    (texts.Nodup ↔ g.Once)
  once : g.Once → stored = item

section Settled

variable {g} {source : IdSource} {a b : Allotment}

/-- A guest fails as its value does. -/
theorem settle_of_error {e : Unsettled} (h : Fresh.settle source g.value a = (.error e, b)) :
    g.settle source a = (.error e, b) := by
  obtain ⟨houtcome, hallotment, -⟩ :=
    settleIn_follows source g.memory g.room g.value?_eq _ _ (g.underway_start a)
  rw [h] at houtcome hallotment
  rcases hr : settleIn source g.room g.top ⟨g.memory, a⟩ with ⟨e' | ⟨⟩, d⟩
  · rw [hr] at houtcome hallotment
    cases houtcome
    rw [settle, hr]
    exact congrArg (Prod.mk _) hallotment
  · rw [hr] at houtcome
    cases houtcome

/-- What is read of an object is one. -/
theorem isObject_of_value? {m : Memory} {room n : Nat} {v : Value}
    (h : m.value? room (.object n) = some v) : v.isObject = true := by
  cases room with
  | zero => cases h
  | succ room =>
    obtain ⟨vs, -, rfl⟩ := Memory.value?_object_eq_some_iff.mp h
    rfl

/-- Where its value is settled, so is a guest. -/
theorem exists_stored {item : Value} (h : Fresh.settle source g.value a = (.ok item, b)) :
    ∃ stored, g.Stored source a item stored b := by
  have hstart := g.underway_start a
  obtain ⟨houtcome, hallotment, hafter⟩ :=
    settleIn_follows source g.memory g.room g.value?_eq _ _ hstart
  rw [h] at houtcome hallotment
  obtain ⟨ids, hids, hadvances⟩ := hafter houtcome
  rcases hr : settleIn source g.room g.top ⟨g.memory, a⟩ with ⟨e | ⟨⟩, d⟩
  · rw [hr] at houtcome
    cases houtcome
  · rw [hr] at hallotment hids hadvances
    simp only at hallotment hids hadvances
    obtain ⟨stored, hstored, hnames⟩ := hids.read g.finite hadvances.turns
    obtain ⟨n, htop⟩ := g.exists_object h
    have hobject := isObject_of_value? (htop ▸ hstored)
    rw [nodesOf_singleton hobject] at hnames
    obtain ⟨idOf, htexts, hapart⟩ := hids.exists_texts hadvances.turns
    have hgrown := hadvances.grown
    rw [hallotment] at hgrown
    refine ⟨stored, h, ?_, hobject, ?_, hgrown, ?_, fun honce => ?_⟩
    · rw [settle, hr]
      simp only [hstored, hallotment]
      rfl
    · have hlength := congrArg List.length hnames
      rwa [List.length_map, List.length_map] at hlength
    · refine ⟨g.names.map idOf, ?_, .of_map _, fun honce => honce.map_on hapart⟩
      rw [hnames, List.map_map]
      exact List.map_congr_left htexts
    · have hread := settleIn_once g.value?_eq _ _ item b hstart (fun _ _ => rfl) honce h
      rw [hr, hstored] at hread
      exact Option.some.inj hread

end Settled

/-- A guest is settled or fails as its value does. -/
theorem settle_cases (source : IdSource) (a : Allotment) :
    (∃ e b, Fresh.settle source g.value a = (.error e, b) ∧ g.settle source a = (.error e, b)) ∨
    ∃ item stored b, g.Stored source a item stored b := by
  rcases hs : Fresh.settle source g.value a with ⟨e | item, b⟩
  · exact .inl ⟨e, b, rfl, settle_of_error hs⟩
  · obtain ⟨stored, hstored⟩ := exists_stored hs
    exact .inr ⟨item, stored, b, hstored⟩

end Guest

end PageBuilder
