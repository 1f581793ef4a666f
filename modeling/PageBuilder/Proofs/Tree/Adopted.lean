import PageBuilder.Proofs.Tree.Held
import PageBuilder.Proofs.Tree.Settle

/-!
What can be inserted, and what it is stored as.

* `Insertable`: what has only nodes of insertable kinds in it;
* `Adopted`: a value beside what is stored of it;
* `Allotted`: the identifiers that the nodes get, one after the other;
* `settle_takenIn`, `settle_unfit`: what settles is insertable, and what is unfit is not;
* `settle_ends`: with patience enough a value settles or is unfit.
-/

namespace PageBuilder

/-- The source with another patience. -/
def IdSource.patient (source : IdSource) (patience : Nat) : IdSource := { source with patience }

/-- As long as no more than `count` identifiers are in use, some later draw gives another one. -/
def IdSource.Supplies (source : IdSource) (count : Nat) : Prop :=
  ∀ (kind : ComponentKind) (used : List String) (number : Nat), used.length ≤ count →
    ∃ later, number < later ∧ Fresh.idText source kind later ∉ used

end PageBuilder

namespace PageBuilder.Fresh

open PageBuilder.Tree (editChildren held held_of_container held_of_leaf isContainer_eq nodesOf
  nodesOf_cons nodesOf_nil nodesOf_singleton nodes_eq nodes)

/-! ## Insertable values -/

/-- A value that can be inserted: an object of a kind other than a page. A container has no
children, or a list of values that can be inserted; what a leaf holds as children does not
matter. -/
inductive Insertable : Value → Prop where
  | node {v : Value} {kind : ComponentKind} (typed : v.kind? = some kind) (inner : kind ≠ .page)
      (listed : kind.isContainer → (v.field "children").isNull ∨ v.childList?.isSome)
      (below : kind.isContainer → ∀ c ∈ v.children, Insertable c) : Insertable v

theorem Insertable.children {v : Value} {kind : ComponentKind} (h : Insertable v)
    (hkind : v.kind? = some kind) (hc : kind.isContainer = true) :
    ((v.field "children").isNull ∨ v.childList?.isSome) ∧ ∀ c ∈ v.children, Insertable c := by
  obtain ⟨htyped, -, hlisted, hbelow⟩ := h
  rw [hkind] at htyped
  cases htyped
  exact ⟨hlisted hc, hbelow hc⟩

/-! ## What is stored -/

/-- A value beside what is stored of it: each node under some identifier and with an object for
properties, containers with a child list, leaves without. -/
inductive Adopted : Value → Value → Prop where
  | leaf {fields : Fields} {kind : ComponentKind} (id : String)
      (typed : (Value.object fields).kind? = some kind) (leaf : kind.isContainer = false) :
      Adopted (.object fields) (.object (Fields.erase (entered id fields) "children"))
  | container {fields : Fields} {kind : ComponentKind} {items : List Value} (id : String)
      (typed : (Value.object fields).kind? = some kind) (container : kind.isContainer = true)
      (below : List.Forall₂ Adopted (Value.object fields).children items) :
      Adopted (.object fields)
        (.object (Fields.set (entered id fields) "children" (.list items)))

theorem Adopted.isObject {v item : Value} (h : Adopted v item) : item.isObject = true := by
  cases h with
  | leaf => rfl
  | container => rfl

theorem isObject_of_adopted {vs items : List Value} (h : List.Forall₂ Adopted vs items) :
    ∀ c ∈ items, c.isObject := by
  induction h with
  | nil => exact List.forall_mem_nil _
  | cons hfirst _ ih => exact List.forall_mem_cons.mpr ⟨hfirst.isObject, ih⟩

/-- The identifiers that values get one after the other, beside those that are in `used`. -/
inductive Allotted (source : IdSource) : List String → List Value → List String → Prop where
  | nil (used : List String) : Allotted source used [] []
  | cons {used names : List String} {v : Value} {vs : List Value} {kind : ComponentKind}
      {id : String} (typed : v.kind? = some kind) (gets : Gets source kind used (v.field "id") id)
      (others : Allotted source (id :: used) vs names) :
      Allotted source used (v :: vs) (id :: names)

section Allotted

variable {source : IdSource} {used names : List String} {vs : List Value}

theorem Allotted.length_eq (h : Allotted source used vs names) : names.length = vs.length := by
  induction h with
  | nil => rfl
  | cons _ _ _ ih => rw [List.length_cons, List.length_cons, ih]

/-- The identifiers are all different, and none of them was in use before. -/
theorem Allotted.nodup (h : Allotted source used vs names) :
    names.Nodup ∧ ∀ id ∈ names, id ∉ used := by
  induction h with
  | nil => exact ⟨.nil, List.forall_mem_nil _⟩
  | cons _ hgets _ ih =>
    rw [List.nodup_cons, List.forall_mem_cons]
    refine ⟨⟨fun hmem => ih.2 _ hmem (List.mem_cons_self ..), ih.1⟩, hgets.new, fun id' hid => ?_⟩
    exact fun hmem => ih.2 id' hid (List.mem_cons_of_mem _ hmem)

theorem Allotted.append {ws : List Value} {more : List String} (h : Allotted source used vs names)
    (hmore : Allotted source (names.reverse ++ used) ws more) :
    Allotted source used (vs ++ ws) (names ++ more) := by
  induction h with
  | nil => exact hmore
  | cons htyped hgets _ ih =>
    refine .cons htyped hgets (ih ?_)
    rwa [List.reverse_cons, List.append_assoc, List.singleton_append] at hmore

end Allotted

/-- Values beside what is stored of them, with the identifiers of all that they hold. -/
structure TakenIn (source : IdSource) (used : List String) (vs items : List Value)
    (names : List String) : Prop where
  adopted : List.Forall₂ Adopted vs items
  named : (nodesOf items).map (fun n => n.field "id") = names.map .text
  allotted : Allotted source used (vs.flatMap held) names

section TakenIn

variable {source : IdSource} {used names : List String} {items : List Value}

theorem TakenIn.nil : TakenIn source used [] [] [] where
  adopted := .nil
  named := by rw [nodesOf_nil, List.map_nil, List.map_nil]
  allotted := .nil used

theorem TakenIn.cons {v item : Value} {vs : List Value} {more : List String}
    (h : TakenIn source used [v] [item] names)
    (hmore : TakenIn source (names.reverse ++ used) vs items more) :
    TakenIn source used (v :: vs) (item :: items) (names ++ more) where
  adopted := .cons (List.forall₂_cons.mp h.adopted).1 hmore.adopted
  named := by
    have ho := (List.forall₂_cons.mp h.adopted).1.isObject
    have hfirst := h.named
    rw [nodesOf_singleton ho] at hfirst
    rw [nodesOf_cons ho, List.map_append, hfirst, hmore.named, List.map_append]
  allotted := by
    have hfirst := h.allotted
    rw [List.flatMap_singleton] at hfirst
    exact hfirst.append hmore.allotted

variable {fields : Fields} {kind : ComponentKind} {id : String}
  (h : Begun source used fields kind id)

include h

theorem Begun.takenIn_leaf (hleaf : kind.isContainer = false) :
    TakenIn source used [.object fields] [.object (Fields.erase (entered id fields) "children")]
      [id] where
  adopted := .cons (.leaf id h.typed hleaf) .nil
  named := by
    obtain ⟨-, hid, hchildren⟩ := h.leaf hleaf
    rw [nodesOf_singleton rfl, nodes_eq, hchildren, nodesOf_nil]
    exact congrArg (fun v => [v]) hid
  allotted := by
    rw [List.flatMap_singleton, held_of_leaf ((isContainer_eq h.typed).trans hleaf)]
    exact .cons h.typed h.gets (.nil _)

theorem Begun.takenIn_container (hc : kind.isContainer = true)
    (hbelow : TakenIn source (id :: used) (Value.object fields).children items names) :
    TakenIn source used [.object fields]
      [editChildren (fun _ => items) (.object (entered id fields))] (id :: names) where
  adopted := .cons (.container id h.typed hc hbelow.adopted) .nil
  named := by
    obtain ⟨-, hid, hchildren⟩ := h.container hc (isObject_of_adopted hbelow.adopted)
    rw [nodesOf_singleton rfl, nodes_eq, List.map_cons, hchildren, hid, hbelow.named,
      List.map_cons]
  allotted := by
    rw [List.flatMap_singleton, held_of_container ((isContainer_eq h.typed).trans hc)]
    exact .cons h.typed h.gets hbelow.allotted

end TakenIn

/-! ## What settles -/

theorem settleAll_takenIn {source : IdSource} (vs : List Value)
    (ih : ∀ v ∈ vs, ∀ a item b, settle source v a = (.ok item, b) →
      Insertable v ∧ ∃ names, TakenIn source a.used [v] [item] names ∧
        b.used = names.reverse ++ a.used) :
    ∀ a items b, settleAll source vs a = (.ok items, b) →
      (∀ v ∈ vs, Insertable v) ∧ ∃ names, TakenIn source a.used vs items names ∧
        b.used = names.reverse ++ a.used := by
  induction vs with
  | nil =>
    intro a items b h
    obtain ⟨rfl, rfl⟩ := settleAll_nil h
    exact ⟨List.forall_mem_nil _, [], .nil, rfl⟩
  | cons v rest ihRest =>
    intro a items b h
    obtain ⟨first, others, c, hfirst, hothers, rfl⟩ := settleAll_cons h
    obtain ⟨hv, names, htaken, hused⟩ := ih v (List.mem_cons_self ..) a first c hfirst
    obtain ⟨hrest, more, htakenMore, husedMore⟩ :=
      ihRest (fun w hw => ih w (List.mem_cons_of_mem _ hw)) c others b hothers
    rw [hused] at htakenMore
    refine ⟨List.forall_mem_cons.mpr ⟨hv, hrest⟩, names ++ more, htaken.cons htakenMore, ?_⟩
    rw [husedMore, hused, List.reverse_append, List.append_assoc]

/-- What settles is insertable, and what is stored of it goes with it node by node. -/
theorem settle_takenIn {source : IdSource} (v : Value) :
    ∀ a item b, settle source v a = (.ok item, b) →
      Insertable v ∧ ∃ names, TakenIn source a.used [v] [item] names ∧
        b.used = names.reverse ++ a.used := by
  induction v using Value.children_induction with
  | step v ih =>
    intro a item b h
    have hsettles := settles source v a
    rw [h] at hsettles
    cases hsettles with
    | @leaf _ kind id _ ho hbegun hused hleaf =>
      subst ho
      -- what a leaf has for children is not looked at
      have hnot : ¬ kind.isContainer = true := by rw [hleaf]; exact Bool.false_ne_true
      exact ⟨.node hbegun.typed hbegun.inner (fun hc => absurd hc hnot) (fun hc => absurd hc hnot),
        [id], hbegun.takenIn_leaf hleaf, hused⟩
    | @empty _ kind id _ ho hbegun hused hc hnull =>
      subst ho
      have hnone := Value.children_of_null hnull
      refine ⟨.node hbegun.typed hbegun.inner (fun _ => .inl hnull) (fun _ => ?_), [id],
        hbegun.takenIn_container hc ?_, hused⟩
      · rw [hnone]
        exact List.forall_mem_nil _
      · rw [hnone]
        exact .nil
    | @listed _ kind id _ _ _ ho hbegun hused hc hlist hall =>
      subst ho
      obtain ⟨hbelow, names, htaken, husedAll⟩ := settleAll_takenIn _ ih _ _ b hall
      rw [hused] at htaken husedAll
      refine ⟨.node hbegun.typed hbegun.inner (fun _ => .inr hlist) (fun _ => hbelow), id :: names,
        hbegun.takenIn_container hc htaken, ?_⟩
      rw [husedAll, List.reverse_cons, List.append_assoc, List.singleton_append]

theorem settleAll_error {source : IdSource} {vs : List Value} {a b : Allotment} {e : Unsettled}
    (h : settleAll source vs a = (.error e, b)) :
    ∃ v ∈ vs, ∃ c, settle source v c = (.error e, b) := by
  induction vs generalizing a with
  | nil =>
    rw [settleAll] at h
    cases h
  | cons v rest ih =>
    rw [settleAll] at h
    split at h
    · rename_i hfirst
      cases h
      exact ⟨v, List.mem_cons_self .., a, hfirst⟩
    · rename_i hfirst
      split at h
      · rename_i hothers
        cases h
        obtain ⟨w, hw, hsettle⟩ := ih hothers
        exact ⟨w, List.mem_cons_of_mem _ hw, hsettle⟩
      · cases h

/-- What is unfit to be inserted is not insertable. -/
theorem settle_unfit {source : IdSource} (v : Value) :
    ∀ a b, settle source v a = (.error .unfit, b) → ¬ Insertable v := by
  induction v using Value.children_induction with
  | step v ih =>
    intro a b h hv
    have hsettles := settles source v a
    rw [h] at hsettles
    cases hsettles with
    | unfit hnone =>
      obtain ⟨htyped, hne, -, -⟩ := hv
      exact hne (hnone _ htyped)
    | unlisted htyped hc hpresent hlist =>
      rcases (hv.children htyped hc).1 with hnull | hsome
      · rw [hpresent] at hnull
        cases hnull
      · rw [hlist] at hsome
        cases hsome
    | below htyped hc hall =>
      -- a child is unfit, whatever was in use when its turn came
      obtain ⟨w, hw, c, hfailed⟩ := settleAll_error hall
      exact ih w hw c b hfailed ((hv.children htyped hc).2 w hw)

/-! ## Patience -/

/-- With patience enough an outcome is reached, which is the same with more. -/
def Ends {α : Type} (f : Nat → Except Unsettled α × Allotment) : Prop :=
  ∃ outcome least, outcome.1 ≠ .error .drawsExhausted ∧
    ∀ patience, least ≤ patience → f patience = outcome

section Ends

variable {α β : Type}

theorem ends_of_ne {outcome : Except Unsettled α × Allotment}
    (h : outcome.1 ≠ .error .drawsExhausted) : Ends fun _ => outcome :=
  ⟨outcome, 0, h, fun _ _ => rfl⟩

/-- Two steps, the second of which is taken if the first succeeds. -/
theorem Ends.andThen {f : Nat → Except Unsettled α × Allotment}
    {both : Nat → Except Unsettled β × Allotment}
    {g : α → Allotment → Nat → Except Unsettled β × Allotment} (hf : Ends f)
    (herror : ∀ patience e a, f patience = (.error e, a) → both patience = (.error e, a))
    (hok : ∀ patience x a, f patience = (.ok x, a) → both patience = g x a patience)
    (hg : ∀ patience x a, f patience = (.ok x, a) → Ends (g x a)) : Ends both := by
  obtain ⟨⟨first, a⟩, least, hne, hfirst⟩ := hf
  cases first with
  | error e =>
    refine ⟨(.error e, a), least, fun heq => hne ?_, fun patience hle => ?_⟩
    · cases heq
      rfl
    · exact herror patience e a (hfirst patience hle)
  | ok x =>
    obtain ⟨outcome, least', hne', hsecond⟩ := hg least x a (hfirst least (Nat.le_refl _))
    refine ⟨outcome, max least least', hne', fun patience hle => ?_⟩
    rw [hok patience x a (hfirst patience (by omega))]
    exact hsecond patience (by omega)

end Ends

section Supplies

variable {source : IdSource} {count : Nat}

/-- Draws reach an identifier that is not in use, the first one that comes. -/
theorem exists_draw {kind : ComponentKind} {used : List String} (k : Nat) :
    ∀ drawn, idText source kind (drawn + (k + 1)) ∉ used →
      ∃ id drawn', ∀ patience tries, k < tries →
        draw (source.patient patience) kind used tries drawn = (some id, drawn') := by
  induction k with
  | zero =>
    intro drawn hnew
    refine ⟨idText source kind (drawn + 1), drawn + 1, fun patience tries hlt => ?_⟩
    obtain ⟨tries, rfl⟩ := Nat.exists_eq_succ_of_ne_zero (Nat.ne_of_gt hlt)
    exact (draw_succ ..).trans (if_neg hnew)
  | succ k ih =>
    intro drawn hnew
    by_cases hin : idText source kind (drawn + 1) ∈ used
    · rw [show drawn + (k + 1 + 1) = drawn + 1 + (k + 1) by omega] at hnew
      obtain ⟨id, drawn', hdraw⟩ := ih (drawn + 1) hnew
      refine ⟨id, drawn', fun patience tries hlt => ?_⟩
      obtain ⟨tries, rfl⟩ := Nat.exists_eq_succ_of_ne_zero (by omega : tries ≠ 0)
      exact (draw_succ ..).trans ((if_pos hin).trans (hdraw patience tries (by omega)))
    · refine ⟨idText source kind (drawn + 1), drawn + 1, fun patience tries hlt => ?_⟩
      obtain ⟨tries, rfl⟩ := Nat.exists_eq_succ_of_ne_zero (by omega : tries ≠ 0)
      exact (draw_succ ..).trans (if_neg hin)

variable (hsource : source.Supplies count)

include hsource

theorem identify_ends {kind : ComponentKind} {fields : Fields} {a : Allotment}
    (h : a.used.length ≤ count) :
    Ends fun patience => identify (source.patient patience) kind fields a := by
  cases hkept : kept? a.used (Fields.field fields "id") with
  | some id =>
    simp only [identify, hkept]
    exact ends_of_ne (by simp)
  | none =>
    obtain ⟨later, hlater, hnew⟩ := hsource kind a.used a.drawn h
    obtain ⟨k, rfl⟩ := Nat.exists_eq_add_of_lt hlater
    obtain ⟨id, drawn, hdraw⟩ := exists_draw k a.drawn hnew
    refine ⟨(.ok (Fields.set fields "id" (.text id)), ⟨id :: a.used, drawn⟩), k, by simp,
      fun patience hle => ?_⟩
    have htries : k < tries (source.patient patience) a.used := by
      show k < patience + a.used.length + 1
      omega
    simp only [identify, hkept, hdraw patience _ htries]

omit hsource in
theorem settleAll_ends (vs : List Value)
    (ih : ∀ v ∈ vs, ∀ a : Allotment, a.used.length + (held v).length ≤ count →
      Ends fun patience => settle (source.patient patience) v a) :
    ∀ a : Allotment, a.used.length + (vs.flatMap held).length ≤ count →
      Ends fun patience => settleAll (source.patient patience) vs a := by
  induction vs with
  | nil =>
    intro a _
    simp only [settleAll]
    exact ends_of_ne (by simp)
  | cons v rest ihRest =>
    intro a h
    rw [List.flatMap_cons, List.length_append] at h
    have hfirst := ih v (List.mem_cons_self ..) a (by omega)
    refine hfirst.andThen
      (g := fun first b patience =>
        let others := settleAll (source.patient patience) rest b
        (others.1.map fun items => first :: items, others.2))
      (fun patience e b hsettle => by simp only [settleAll, hsettle])
      (fun patience first b hsettle => by
        rcases hrest : settleAll (source.patient patience) rest b with ⟨_ | _, _⟩ <;>
          simp only [settleAll, hsettle, hrest, Except.map])
      fun patience first b hsettle => ?_
    obtain ⟨-, names, htaken, hused⟩ := settle_takenIn v a first b hsettle
    have hlength := htaken.allotted.length_eq
    rw [List.flatMap_singleton] at hlength
    have hothers := ihRest (fun w hw => ih w (List.mem_cons_of_mem _ hw)) b (by
      rw [hused, List.length_append, List.length_reverse]
      omega)
    exact hothers.andThen (g := fun others c _ => (.ok (first :: others), c))
      (fun patience e c hsettle => by simp only [hsettle, Except.map])
      (fun patience others c hsettle => by simp only [hsettle, Except.map])
      fun _ _ _ _ => ends_of_ne (by simp)

omit hsource in
theorem settleBelow_ends {kind : ComponentKind} {fields : Fields} {v : Value} {a : Allotment}
    (h : kind.isContainer = true →
      Ends fun patience => settleAll (source.patient patience) v.children a) :
    Ends fun patience => settleBelow (source.patient patience) kind fields v a := by
  unfold settleBelow
  split
  · exact ends_of_ne (by simp)
  · rename_i hc
    split
    · exact ends_of_ne (by simp)
    · split
      · exact ends_of_ne (by simp)
      · exact (h (by simpa using hc)).andThen
          (g := fun items b _ => (.ok (editChildren (fun _ => items) (.object fields)), b))
          (fun patience e b hall => by simp only [hall])
          (fun patience items b hall => by simp only [hall])
          fun _ _ _ _ => ends_of_ne (by simp)

/-- A value settles or is unfit as soon as there is patience for the draws that it takes. -/
theorem settle_ends (v : Value) : ∀ a : Allotment, a.used.length + (held v).length ≤ count →
    Ends fun patience => settle (source.patient patience) v a := by
  induction v using Value.children_induction with
  | step v ih =>
    intro a h
    rcases unfit_or_typed v with hunfit | ⟨fields, kind, rfl, htyped, hne⟩
    · simp only [settle_of_unfit hunfit]
      exact ends_of_ne (by simp)
    · have hroom : a.used.length ≤ count := by omega
      refine (identify_ends hsource hroom).andThen
        (g := fun named b patience =>
          settleBelow (source.patient patience) kind (withProps named) (.object fields) b)
        (fun patience e b hidentify => by rw [settle_of_kind htyped hne, hidentify])
        (fun patience named b hidentify => by rw [settle_of_kind htyped hne, hidentify])
        fun patience named b hidentify => settleBelow_ends fun hc => settleAll_ends _ ih b ?_
      -- one identifier more is in use, and what is below is held by the node
      have hused : b.used.length = a.used.length + 1 := by
        rcases identify_cases (source.patient patience) kind fields a with
          ⟨id, c, -, hused, heq⟩ | ⟨c, heq⟩
        · rw [hidentify] at heq
          cases heq
          rw [hused, List.length_cons]
        · rw [hidentify] at heq
          cases heq
      rw [held_of_container ((isContainer_eq htyped).trans hc), List.length_cons] at h
      omega

end Supplies

end PageBuilder.Fresh
