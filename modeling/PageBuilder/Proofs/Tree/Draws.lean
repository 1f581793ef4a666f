import Mathlib.Algebra.GroupWithZero.Nat
import Mathlib.Order.Interval.Finset.Nat
import PageBuilder.Proofs.Tree.Settle

/-!
How many draws it takes to give the nodes of a value their identifiers.

* `Draws`: draws without a limit, until an identifier is new;
* `Turn`, `Turn.Of`: what one node takes, and what it leaves;
* `Settling`: the course of settling values, with as many draws as it takes;
* `settleAll_comes`: settling comes to the end of its course, or draws have begun alike;
* `settle_within_draws`: if no draws begin alike, a value is settled or refused, each node takes at
  most one draw more than there are identifiers in use, and each one that is stored puts one more
  into use.

The values are trees, in which no node is listed twice; of others, see `Guest.Ended`.
-/

namespace PageBuilder

/-- The part of a draw that is put into an identifier. -/
def IdSource.digits (source : IdSource) (number : Nat) : List Char :=
  (source.draw number).toList.take Fresh.nodeIdLength

/-- No two draws after `first` and up to `last` begin alike. There is a last one, because there are
only so many ways to begin. -/
def IdSource.Distinct (source : IdSource) (first last : Nat) : Prop :=
  ∀ m ∈ Finset.Ioc first last, ∀ n ∈ Finset.Ioc first last,
    source.digits m = source.digits n → m = n

instance (source : IdSource) (first last : Nat) : Decidable (source.Distinct first last) :=
  inferInstanceAs (Decidable (∀ m ∈ Finset.Ioc first last, ∀ n ∈ Finset.Ioc first last,
    source.digits m = source.digits n → m = n))

theorem IdSource.Distinct.mono {source : IdSource} {first last first' last' : Nat}
    (h : source.Distinct first last) (hfirst : first ≤ first') (hlast : last' ≤ last) :
    source.Distinct first' last' := by
  have hsub := Finset.Ioc_subset_Ioc hfirst hlast
  exact fun m hm n hn => h m (hsub hm) n (hsub hn)

/-- The identifiers in use, each of them once. -/
def Allotment.inUse (a : Allotment) : Finset String := a.used.toFinset

namespace Fresh

open PageBuilder.Tree (editChildren nodes nodesOf_singleton)

/-! ## Draws -/

/-- Draws until an identifier is not in use, however many it takes; the last number is that of the
draw that gives the identifier. -/
inductive Draws (source : IdSource) (kind : ComponentKind) (used : List String) :
    Nat → String → Nat → Prop where
  | new {drawn : Nat} (fresh : idText source kind (drawn + 1) ∉ used) :
      Draws source kind used drawn (idText source kind (drawn + 1)) (drawn + 1)
  | again {drawn last : Nat} {id : String} (taken : idText source kind (drawn + 1) ∈ used)
      (rest : Draws source kind used (drawn + 1) id last) : Draws source kind used drawn id last

section Draws

variable {source : IdSource} {kind : ComponentKind} {used : List String} {tries drawn last : Nat}
  {id : String}

theorem draws_of_draw (h : draw source kind used tries drawn = (some id, last)) :
    Draws source kind used drawn id last := by
  induction tries generalizing drawn with
  | zero => cases h
  | succ tries ih =>
    rw [draw_succ] at h
    split at h
    · rename_i htaken
      exact .again htaken (ih h)
    · rename_i hfresh
      cases h
      exact .new hfresh

/-- When the tries are exhausted, all that was drawn is in use. -/
theorem taken_of_draw (h : draw source kind used tries drawn = (none, last)) :
    last = drawn + tries ∧ ∀ n ∈ Finset.Ioc drawn last, idText source kind n ∈ used := by
  induction tries generalizing drawn with
  | zero =>
    cases h
    exact ⟨rfl, by simp⟩
  | succ tries ih =>
    rw [draw_succ] at h
    split at h
    · rename_i htaken
      obtain ⟨hlast, hrest⟩ := ih h
      refine ⟨by omega, fun n hn => ?_⟩
      rw [Finset.mem_Ioc] at hn
      by_cases hn' : n = drawn + 1
      · rw [hn']
        exact htaken
      · exact hrest n (Finset.mem_Ioc.mpr ⟨by omega, hn.2⟩)
    · cases h

/-- All draws but the last one give identifiers that are in use. -/
theorem Draws.taken (h : Draws source kind used drawn id last) :
    drawn < last ∧ ∀ n ∈ Finset.Ioo drawn last, idText source kind n ∈ used := by
  induction h with
  | new hfresh => exact ⟨Nat.lt_succ_self _, fun n hn => by rw [Finset.mem_Ioo] at hn; omega⟩
  | @again drawn last id htaken _ ih =>
    refine ⟨by omega, fun n hn => ?_⟩
    rw [Finset.mem_Ioo] at hn
    by_cases hn' : n = drawn + 1
    · rw [hn']
      exact htaken
    · exact ih.2 n (Finset.mem_Ioo.mpr ⟨by omega, hn.2⟩)

theorem Draws.fresh (h : Draws source kind used drawn id last) : id ≠ "" ∧ id ∉ used := by
  induction h with
  | new hfresh => exact ⟨idText_ne source kind _, hfresh⟩
  | again _ _ ih => exact ih

theorem digits_eq_of_idText {m n : Nat} (h : idText source kind m = idText source kind n) :
    source.digits m = source.digits n := by
  have htexts := congrArg String.toList h
  simpa [idText, IdSource.digits] using htexts

/-- Draws that do not begin alike and are all in use are no more than what is in use. -/
theorem card_le_inUse (hd : source.Distinct drawn last) {numbers : Finset Nat}
    (hsub : numbers ⊆ Finset.Ioc drawn last)
    (htaken : ∀ n ∈ numbers, idText source kind n ∈ used) : numbers.card ≤ used.toFinset.card := by
  refine Finset.card_le_card_of_injOn (idText source kind)
    (fun n hn => List.mem_toFinset.mpr (htaken n hn)) fun m hm n hn heq => ?_
  exact hd m (hsub hm) n (hsub hn) (digits_eq_of_idText heq)

end Draws

/-! ## Turns -/

/-- What one node takes: the identifier that it has before and the one that it is stored under, what
is in use before, and how many draws were made then. -/
structure Turn where
  own : Value
  id : String
  before : Allotment
  last : Nat

namespace Turn

/-- What a node leaves to those after it. -/
def after (t : Turn) : Allotment := ⟨t.id :: t.before.used, t.last⟩

/-- How many draws a node takes. -/
def draws (t : Turn) : Nat := t.last - t.before.drawn

/-- A node keeps its identifier if that is a text, not empty and not in use. Otherwise it gets the
first one that is drawn and not in use. -/
inductive Of (source : IdSource) (kind : ComponentKind) : Turn → Prop where
  | kept {id : String} {a : Allotment} (ne : id ≠ "") (fresh : id ∉ a.used) :
      Of source kind ⟨.text id, id, a, a.drawn⟩
  | repaired {own : Value} {id : String} {a : Allotment} {last : Nat}
      (unusable : ∀ s, own = .text s → s = "" ∨ s ∈ a.used)
      (draws : Draws source kind a.used a.drawn id last) : Of source kind ⟨own, id, a, last⟩

/-- A node that keeps its identifier takes no draw, and another one at most one draw more than there
are identifiers in use. -/
def Frugal (t : Turn) : Prop :=
  (t.own = .text t.id → t.draws = 0) ∧ (t.own ≠ .text t.id → t.draws ≤ t.before.inUse.card + 1)

variable {source : IdSource} {kind : ComponentKind} {t : Turn}

theorem Of.onward (h : t.Of source kind) : t.before.drawn ≤ t.last := by
  cases h with
  | kept => exact Nat.le_refl _
  | repaired _ hdraws => exact hdraws.taken.1.le

theorem Of.fresh (h : t.Of source kind) : t.id ∉ t.before.used := by
  cases h with
  | kept _ hfresh => exact hfresh
  | repaired _ hdraws => exact hdraws.fresh.2

theorem Of.frugal (h : t.Of source kind) (hd : source.Distinct t.before.drawn t.last) :
    t.Frugal := by
  cases h with
  | kept => exact ⟨fun _ => Nat.sub_self _, fun hne => absurd rfl hne⟩
  | @repaired own id a last hunusable hdraws =>
    obtain ⟨hlt, htaken⟩ := hdraws.taken
    refine ⟨fun heq => ?_, fun _ => ?_⟩
    · exact absurd (hunusable id heq) (not_or.mpr hdraws.fresh)
    · have hle : (Finset.Ioo a.drawn last).card ≤ a.used.toFinset.card :=
        card_le_inUse hd Finset.Ioo_subset_Ioc_self htaken
      rw [Nat.card_Ioo] at hle
      show last - a.drawn ≤ a.used.toFinset.card + 1
      omega

end Turn

/-- Turns one after the other, each with what the one before left. -/
inductive Turns (source : IdSource) : Allotment → List Turn → Allotment → Prop where
  | nil (a : Allotment) : Turns source a [] a
  | cons {kind : ComponentKind} {t : Turn} {turns : List Turn} {b : Allotment}
      (first : t.Of source kind) (others : Turns source t.after turns b) :
      Turns source t.before (t :: turns) b

namespace Turns

variable {source : IdSource} {a b c : Allotment} {turns more : List Turn}

theorem append (h : Turns source a turns b) (hmore : Turns source b more c) :
    Turns source a (turns ++ more) c := by
  induction h with
  | nil => exact hmore
  | cons hfirst _ ih => exact .cons hfirst (ih hmore)

theorem onward (h : Turns source a turns b) : a.drawn ≤ b.drawn := by
  induction h with
  | nil => exact Nat.le_refl _
  | cons hfirst _ ih => exact Nat.le_trans hfirst.onward ih

theorem drawn_eq (h : Turns source a turns b) :
    b.drawn = a.drawn + (turns.map Turn.draws).sum := by
  induction h with
  | nil => rfl
  | @cons _ t turns b hfirst _ ih =>
    have honward := hfirst.onward
    rw [ih, List.map_cons, List.sum_cons, Turn.draws]
    show t.last + _ = _
    omega

theorem used_eq (h : Turns source a turns b) : b.used = (turns.map Turn.id).reverse ++ a.used := by
  induction h with
  | nil => rfl
  | @cons _ t turns b _ _ ih =>
    rw [ih, List.map_cons, List.reverse_cons, List.append_assoc]
    rfl

theorem inUse_eq (h : Turns source a turns b) :
    b.inUse = a.inUse ∪ (turns.map Turn.id).toFinset := by
  rw [Allotment.inUse, h.used_eq, List.toFinset_append, List.toFinset_reverse, Finset.union_comm]
  rfl

/-- Each turn puts one more identifier into use. -/
theorem card_inUse (h : Turns source a turns b) : b.inUse.card = a.inUse.card + turns.length := by
  induction h with
  | nil => rfl
  | @cons _ t turns b hfirst _ ih =>
    have hnew : t.id ∉ t.before.inUse := fun hmem => hfirst.fresh (List.mem_toFinset.mp hmem)
    have hafter : t.after.inUse = insert t.id t.before.inUse := List.toFinset_cons
    rw [ih, hafter, Finset.card_insert_of_notMem hnew, List.length_cons]
    omega

theorem frugal (h : Turns source a turns b) (hd : source.Distinct a.drawn b.drawn) :
    ∀ t ∈ turns, t.Frugal := by
  induction h with
  | nil => exact List.forall_mem_nil _
  | cons hfirst hothers ih =>
    refine List.forall_mem_cons.mpr ⟨?_, ih (hd.mono hfirst.onward (Nat.le_refl _))⟩
    exact hfirst.frugal (hd.mono (Nat.le_refl _) hothers.onward)

end Turns

/-! ## The course of settling -/

/-- A node of a kind that can be inserted, and what it takes. -/
structure Begins (source : IdSource) (fields : Fields) (kind : ComponentKind) (t : Turn) :
    Prop where
  typed : (Value.object fields).kind? = some kind
  inner : kind ≠ .page
  own : t.own = Fields.field fields "id"
  turn : t.Of source kind

/-- The course of settling some values one after the other, with as many draws as it takes: the
nodes that have a turn, and what is stored in the end, which is nothing as soon as one of the values
is unfit. -/
inductive Settling (source : IdSource) :
    List Value → Allotment → List Turn → Option (List Value) → Allotment → Prop where
  | nil (a : Allotment) : Settling source [] a [] (some []) a
  | unfit {v : Value} {rest : List Value} {a : Allotment}
      (noKind : ∀ kind, v.kind? = some kind → kind = .page) :
      Settling source (v :: rest) a [] none a
  | leaf {fields : Fields} {kind : ComponentKind} {t : Turn} {rest : List Value}
      {turns : List Turn} {items : Option (List Value)} {b : Allotment}
      (begins : Begins source fields kind t) (leaf : kind.isContainer = false)
      (beside : Settling source rest t.after turns items b) :
      Settling source (.object fields :: rest) t.before (t :: turns)
        (items.map (.object (Fields.erase (entered t.id fields) "children") :: ·)) b
  | container {fields : Fields} {kind : ComponentKind} {t : Turn} {rest children : List Value}
      {below turns : List Turn} {items : Option (List Value)} {b c : Allotment}
      (begins : Begins source fields kind t) (container : kind.isContainer = true)
      (listed : ((Value.object fields).field "children").isNull ∨
        (Value.object fields).childList?.isSome)
      (settled : Settling source (Value.object fields).children t.after below (some children) b)
      (beside : Settling source rest b turns items c) :
      Settling source (.object fields :: rest) t.before (t :: (below ++ turns))
        (items.map (editChildren (fun _ => children) (.object (entered t.id fields)) :: ·)) c
  | unlisted {fields : Fields} {kind : ComponentKind} {t : Turn} {rest : List Value}
      (begins : Begins source fields kind t) (container : kind.isContainer = true)
      (present : ((Value.object fields).field "children").isNull = false)
      (unlisted : (Value.object fields).childList? = none) :
      Settling source (.object fields :: rest) t.before [t] none t.after
  | refused {fields : Fields} {kind : ComponentKind} {t : Turn} {rest : List Value}
      {below : List Turn} {b : Allotment}
      (begins : Begins source fields kind t) (container : kind.isContainer = true)
      (listed : (Value.object fields).childList?.isSome)
      (refused : Settling source (Value.object fields).children t.after below none b) :
      Settling source (.object fields :: rest) t.before (t :: below) none b

theorem Settling.turns {source : IdSource} {vs : List Value} {a b : Allotment} {turns : List Turn}
    {items : Option (List Value)} (h : Settling source vs a turns items b) :
    Turns source a turns b := by
  induction h with
  | nil a => exact .nil a
  | unfit _ => exact .nil _
  | leaf hbegins _ _ ih => exact .cons hbegins.turn ih
  | container hbegins _ _ _ _ ihBelow ih => exact .cons hbegins.turn (ihBelow.append ih)
  | unlisted hbegins _ _ _ => exact .cons hbegins.turn (.nil _)
  | refused hbegins _ _ _ ih => exact .cons hbegins.turn ih

/-- What settling some values comes to: the end of the course, or draws that begin alike. -/
inductive Comes (source : IdSource) (vs : List Value) (a : Allotment) :
    Except Unsettled (List Value) × Allotment → Prop where
  | settled {turns : List Turn} {items : List Value} {b : Allotment}
      (course : Settling source vs a turns (some items) b) : Comes source vs a (.ok items, b)
  | refused {turns : List Turn} {b : Allotment} (course : Settling source vs a turns none b) :
      Comes source vs a (.error .unfit, b)
  | exhausted {b : Allotment} (alike : ¬ source.Distinct a.drawn b.drawn) :
      Comes source vs a (.error .drawsExhausted, b)

/-- A node is given its identifier in its turn, or draws that begin alike exhaust the tries. -/
theorem identify_turn (source : IdSource) (kind : ComponentKind) (fields : Fields)
    (a : Allotment) :
    (∃ t : Turn, t.before = a ∧ t.own = Fields.field fields "id" ∧ t.Of source kind ∧
      identify source kind fields a = (.ok (Fields.set fields "id" (.text t.id)), t.after)) ∨
    ∃ b, identify source kind fields a = (.error .drawsExhausted, b) ∧
      ¬ source.Distinct a.drawn b.drawn := by
  cases hkept : kept? a.used (Fields.field fields "id") with
  | some id =>
    obtain ⟨hown, hne, hfresh⟩ := kept?_eq_some_iff.mp hkept
    refine .inl ⟨⟨.text id, id, a, a.drawn⟩, rfl, hown.symm, .kept hne hfresh, ?_⟩
    exact identify_of_kept hkept
  | none =>
    have hunusable : ∀ s, Fields.field fields "id" = .text s → s = "" ∨ s ∈ a.used := by
      intro s hs
      by_contra hnot
      rw [kept?_eq_some_iff.mpr ⟨hs, not_or.mp hnot⟩] at hkept
      cases hkept
    rw [identify, hkept]
    rcases hdraw : draw source kind a.used (tries source a.used) a.drawn with ⟨_ | id, last⟩
    · obtain ⟨hlast, htaken⟩ := taken_of_draw hdraw
      refine .inr ⟨_, rfl, fun hd => ?_⟩
      have hle : (Finset.Ioc a.drawn last).card ≤ a.used.toFinset.card :=
        card_le_inUse hd (Finset.Subset.refl _) htaken
      have hused := List.toFinset_card_le a.used
      rw [Nat.card_Ioc, hlast, tries] at hle
      omega
    · exact .inl ⟨⟨_, id, a, last⟩, rfl, rfl, .repaired hunusable (draws_of_draw hdraw), rfl⟩

section Comes

variable {source : IdSource} {v item : Value} {vs rest : List Value} {a b : Allotment}

/-- A value that is settled, and those beside it. -/
theorem Comes.beside (hsettle : settle source v a = (.ok item, b)) (hle : a.drawn ≤ b.drawn)
    (hcourse : ∀ {turns items c}, Settling source rest b turns items c →
      ∃ turns, Settling source (v :: rest) a turns (items.map (item :: ·)) c)
    (hrest : Comes source rest b (settleAll source rest b)) :
    Comes source (v :: rest) a (settleAll source (v :: rest) a) := by
  rw [settleAll]
  simp only [hsettle]
  generalize settleAll source rest b = outcome at hrest ⊢
  cases hrest with
  | settled hsettled =>
    obtain ⟨turns, h⟩ := hcourse hsettled
    exact .settled h
  | refused hrefused =>
    obtain ⟨turns, h⟩ := hcourse hrefused
    exact .refused h
  | exhausted halike => exact .exhausted fun hd => halike (hd.mono hle (Nat.le_refl _))

theorem Comes.of_unfit {turns : List Turn} (hsettle : settle source v a = (.error .unfit, b))
    (hcourse : Settling source (v :: rest) a turns none b) :
    Comes source (v :: rest) a (settleAll source (v :: rest) a) := by
  rw [settleAll, hsettle]
  exact .refused hcourse

theorem Comes.of_exhausted (hsettle : settle source v a = (.error .drawsExhausted, b))
    (halike : ¬ source.Distinct a.drawn b.drawn) :
    Comes source (v :: rest) a (settleAll source (v :: rest) a) := by
  rw [settleAll, hsettle]
  exact .exhausted halike

/-- The first value is settled with all below it, and then those beside it are. -/
theorem comes_cons (hbelow : ∀ a, Comes source v.children a (settleAll source v.children a))
    (hrest : ∀ a, Comes source rest a (settleAll source rest a)) (a : Allotment) :
    Comes source (v :: rest) a (settleAll source (v :: rest) a) := by
  rcases unfit_or_typed v with hunfit | ⟨fields, kind, rfl, htyped, hne⟩
  · exact .of_unfit (settle_of_unfit hunfit source a) (.unfit hunfit)
  · rcases identify_turn source kind fields a with
      ⟨t, rfl, hown, hturn, hidentify⟩ | ⟨b, hidentify, halike⟩
    · have hbegins : Begins source fields kind t := ⟨htyped, hne, hown, hturn⟩
      have hlaid := settlesBelow source kind (entered t.id fields) (.object fields) t.after
      have hsettle := settle_of_identify htyped hne hidentify
      generalize settleBelow source kind _ _ t.after = outcome at hlaid hsettle
      have hchildren := hbelow t.after
      cases hlaid with
      | leaf hleaf =>
        refine .beside hsettle hturn.onward (fun hmore => ?_) (hrest t.after)
        exact ⟨_, .leaf hbegins hleaf hmore⟩
      | empty hc hnull =>
        have hnone : Settling source (Value.object fields).children t.after [] (some []) t.after := by
          rw [Value.children_of_null hnull]
          exact .nil _
        refine .beside hsettle hturn.onward (fun hmore => ?_) (hrest t.after)
        exact ⟨_, .container hbegins hc (.inl hnull) hnone hmore⟩
      | unlisted hc hpresent hlist =>
        exact .of_unfit hsettle (.unlisted hbegins hc hpresent hlist)
      | listed hc hsome hall =>
        rw [hall] at hchildren
        cases hchildren with
        | settled hsettled =>
          have honward := Nat.le_trans hturn.onward hsettled.turns.onward
          refine .beside hsettle honward (fun hmore => ?_) (hrest _)
          exact ⟨_, .container hbegins hc (.inr hsome) hsettled hmore⟩
      | failed hc hsome hall =>
        rw [hall] at hchildren
        cases hchildren with
        | refused hrefused => exact .of_unfit hsettle (.refused hbegins hc hsome hrefused)
        | exhausted halike =>
          exact .of_exhausted hsettle fun hd => halike (hd.mono hturn.onward (Nat.le_refl _))
    · have hsettle := settle_of_kind htyped hne source a
      rw [hidentify] at hsettle
      exact .of_exhausted hsettle halike

end Comes

/-- Settling comes to the end of its course unless draws begin alike. -/
theorem settleAll_comes (source : IdSource) (vs : List Value) :
    ∀ a, Comes source vs a (settleAll source vs a) := by
  induction vs using Value.forest_induction with
  | nil =>
    intro a
    rw [settleAll]
    exact .settled (.nil a)
  | cons v rest hbelow hrest => exact comes_cons hbelow hrest

theorem settleAll_singleton (source : IdSource) (v : Value) (a : Allotment) :
    settleAll source [v] a =
      ((settle source v a).1.map fun item => [item], (settle source v a).2) := by
  rw [settleAll]
  rcases settle source v a with ⟨_ | item, b⟩
  · rfl
  · simp only [settleAll]
    rfl

section Course

variable {source : IdSource} {v item : Value} {a b : Allotment} {turns : List Turn}

/-- A value is settled or refused at the end of its course, unless draws begin alike. -/
theorem settle_course (h : source.Distinct a.drawn (settle source v a).2.drawn) :
    ∃ (turns : List Turn) (result : Option Value) (b : Allotment),
      Settling source [v] a turns (result.map ([·])) b ∧
      settle source v a = (result.elim (.error .unfit) .ok, b) := by
  have hcomes := settleAll_comes source [v] a
  rw [settleAll_singleton] at hcomes
  rcases hsettle : settle source v a with ⟨e | item, b⟩
  · rw [hsettle] at hcomes h
    cases hcomes with
    | refused hrefused => exact ⟨_, none, b, hrefused, rfl⟩
    | exhausted halike => exact absurd h halike
  · rw [hsettle] at hcomes
    cases hcomes with
    | settled hsettled => exact ⟨_, some item, b, hsettled, rfl⟩

/-- The nodes of what is stored have had a turn one after the other. -/
theorem Turns.ids_eq (hturns : Turns source a turns b)
    (hsettle : settle source v a = (.ok item, b)) :
    (nodes item).map (fun n => n.field "id") = turns.map (.text ·.id) := by
  have hnamed := settle_named v a item b hsettle
  have hobject := hnamed.isObject_of_mem item (List.mem_singleton_self item)
  obtain ⟨names, hids, -, -, hused⟩ := hnamed.names
  rw [hturns.used_eq, List.append_cancel_right_eq, List.reverse_inj] at hused
  rw [nodesOf_singleton hobject, ← hused, List.map_map] at hids
  exact hids

end Course

/-- A value is settled or refused at the end of a course that has no limit on draws, with few draws
for each turn and no others. What is stored puts the identifiers of its nodes into use, one more for
each node. -/
structure Ended (source : IdSource) (v : Value) (a : Allotment) (turns : List Turn)
    (result : Option Value) (b : Allotment) : Prop where
  course : Settling source [v] a turns (result.map ([·])) b
  settled : settle source v a = (result.elim (.error .unfit) .ok, b)
  frugal : ∀ t ∈ turns, t.Frugal
  drawn : b.drawn = a.drawn + (turns.map Turn.draws).sum
  ids : ∀ item ∈ result, (nodes item).map (fun n => n.field "id") = turns.map (.text ·.id)
  inUse : b.inUse = a.inUse ∪ (turns.map Turn.id).toFinset
  grown : ∀ item ∈ result, b.inUse.card = a.inUse.card + (nodes item).length

/-- If no draws that it makes begin alike, settling a value ends. A node that gets another
identifier takes at most one draw more than there are identifiers in use when it has its turn, and a
node that keeps its own takes none. -/
theorem settle_within_draws (source : IdSource) (v : Value) (a : Allotment)
    (h : source.Distinct a.drawn (settle source v a).2.drawn) :
    ∃ turns result b, Ended source v a turns result b := by
  obtain ⟨turns, result, b, hcourse, hsettle⟩ := settle_course h
  rw [hsettle] at h
  have hturns := hcourse.turns
  have hids : ∀ item ∈ result,
      (nodes item).map (fun n => n.field "id") = turns.map (.text ·.id) := by
    rintro item rfl
    exact hturns.ids_eq hsettle
  refine ⟨turns, result, b, hcourse, hsettle, hturns.frugal h, hturns.drawn_eq, hids,
    hturns.inUse_eq, fun item hitem => ?_⟩
  have hlength := congrArg List.length (hids item hitem)
  rw [List.length_map, List.length_map] at hlength
  rw [hturns.card_inUse, hlength]

end Fresh

end PageBuilder
