import PageBuilder.Proofs.Document.Shape
import PageBuilder.Proofs.Json.Canonical
import PageBuilder.Proofs.Json.Plain
import PageBuilder.Service.Session

/-!
What is left of a value when it is sent.

* `Shown`: a value in which no name is hidden;
* `Writable`: a value in which every number is finite that is under no hidden name;
* `Sends`, `exists_sends`: every value that has a text is sent as one in which no name is hidden,
  which is the value itself if no name is hidden in it, and JSON-like just if that is writable;
* `SentAs`, `exists_sentAs`: so is every storable value, as a storable one;
* `sent?_isSome_iff`, `sent?_ok_isSome_iff`: a body that has a text is sent just if it is writable;
* `sent?_ok`: an answer in which nothing is hidden is sent as it is;
* `shown_sorted_iff`, `shown_shaped`: neither the order of fields nor the shape hides a name.
-/

namespace PageBuilder.Answer

open Value (Storable)

/-- A value of lists and objects in which no name is hidden. -/
inductive Shown : Value → Prop where
  | atom (a : Atom) : Shown (.atom a)
  | list {items : List Value} (items_shown : ∀ v ∈ items, Shown v) : Shown (.list items)
  | object {fields : Fields} (names_shown : ∀ f ∈ fields, isHidden f.1 = false)
      (fields_shown : ∀ f ∈ fields, Shown f.2) : Shown (.object fields)

@[simp] theorem shown_atom (a : Atom) : Shown (.atom a) := .atom a

@[simp] theorem shown_list_iff (items : List Value) :
    Shown (.list items) ↔ ∀ v ∈ items, Shown v := by
  constructor
  · intro h
    cases h with
    | list hitems => exact hitems
  · exact .list

theorem shown_object_iff (fields : Fields) :
    Shown (.object fields) ↔ ∀ f ∈ fields, isHidden f.1 = false ∧ Shown f.2 := by
  constructor
  · intro h
    cases h with
    | object hnames hfields => exact fun f hf => ⟨hnames f hf, hfields f hf⟩
  · intro h
    exact .object (fun f hf => (h f hf).1) fun f hf => (h f hf).2

@[simp] theorem shown_empty : Shown (.object []) :=
  (shown_object_iff []).mpr fun _ hf => by cases hf

@[simp] theorem shown_ofFields_iff (pairs : List (String × Value)) :
    Shown (.ofFields pairs) ↔ ∀ p ∈ pairs, isHidden (.text p.1) = false ∧ Shown p.2 := by
  rw [Value.ofFields, shown_object_iff, List.forall_mem_map]

/-- A value that can be written when it was sent: every number is finite, but for those under names
that are hidden. -/
inductive Writable : Value → Prop where
  | atom {a : Atom} (finite : a.offence? = none) : Writable (.atom a)
  | list {items : List Value} (items_writable : ∀ v ∈ items, Writable v) : Writable (.list items)
  | object {fields : Fields}
      (fields_writable : ∀ f ∈ fields, isHidden f.1 = false → Writable f.2) :
      Writable (.object fields)

@[simp] theorem writable_atom_iff (a : Atom) : Writable (.atom a) ↔ a.offence? = none := by
  constructor
  · intro h
    cases h with
    | atom ha => exact ha
  · exact .atom

@[simp] theorem writable_list_iff (items : List Value) :
    Writable (.list items) ↔ ∀ v ∈ items, Writable v := by
  constructor
  · intro h
    cases h with
    | list hitems => exact hitems
  · exact .list

theorem writable_object_iff (fields : Fields) :
    Writable (.object fields) ↔ ∀ f ∈ fields, isHidden f.1 = false → Writable f.2 := by
  constructor
  · intro h
    cases h with
    | object hfields => exact hfields
  · exact .object

@[simp] theorem writable_ofFields_iff (pairs : List (String × Value)) :
    Writable (.ofFields pairs) ↔ ∀ p ∈ pairs, isHidden (.text p.1) = false → Writable p.2 := by
  rw [Value.ofFields, writable_object_iff, List.forall_mem_map]

theorem writable_of_storable {v : Value} (h : v.Storable) : Writable v := by
  induction h with
  | atom ha => exact .atom ha
  | list _ ih => exact .list ih
  | object _ _ _ ih => exact .object fun f hf _ => ih f hf

/-! ## Sending -/

/-- The value `v` that has a text is sent as `w`. -/
structure Sends (v w : Value) : Prop where
  sent : sendable? v = some w
  spelled : w.Spelled
  shown : Shown w
  same : Shown v → w = v
  writable : w.offence? = none ↔ Writable v

/-- The value `v` is sent as `w`. -/
structure SentAs (v w : Value) : Prop where
  sent : sendable? v = some w
  storable : w.Storable
  shown : Shown w
  same : Shown v → w = v

theorem sends_atom {a : Atom} (h : a.offence? = none ∨ ∃ x, a = .float x) :
    Sends (.atom a) (.atom a) := by
  refine ⟨?_, .atom h, .atom a, fun _ => rfl, ?_⟩
  · cases a with
    | missing => simp [Atom.offence?] at h
    | octets bytes => simp [Atom.offence?] at h
    | foreign => simp [Atom.offence?] at h
    | _ => rfl
  · rw [Value.offence?_atom, writable_atom_iff]

section Parts

open List (Forall₂ forall₂_and_left)

variable {R : Value → Value → Prop}

/-- Items are sent one by one. -/
theorem allSendable?_eq {items : List Value}
    (h : ∀ v ∈ items, ∃ w, sendable? v = some w ∧ R v w) :
    ∃ ws, allSendable? items = some ws ∧ Forall₂ R items ws := by
  induction items with
  | nil => exact ⟨[], rfl, .nil⟩
  | cons v rest ih =>
    rw [List.forall_mem_cons] at h
    obtain ⟨⟨w, hw, hR⟩, hrest⟩ := h
    obtain ⟨ws, hws, hall⟩ := ih hrest
    refine ⟨w :: ws, ?_, .cons hR hall⟩
    rw [allSendable?, hw, hws]
    rfl

/-- A field with a text for its name is sent unless the name is hidden. -/
theorem sendableFields?_cons {name : String} {v w : Value} {rest others : Fields}
    (hname : isHidden (.text name) = false) (hv : sendable? v = some w)
    (hrest : sendableFields? rest = some others) :
    sendableFields? ((.text name, v) :: rest) = some ((.text name, w) :: others) := by
  rw [sendableFields?, if_neg (by rw [hname]; exact Bool.false_ne_true), hv, hrest]
  rfl

theorem sendableFields?_cons_of_hidden {k : Key} {v : Value} {rest : Fields}
    (hk : isHidden k = true) : sendableFields? ((k, v) :: rest) = sendableFields? rest := by
  rw [sendableFields?, if_pos hk]

/-- Fields with texts for names are sent one by one, but for those whose names are hidden. -/
theorem sendableFields?_eq {fields : Fields} (hnamed : ∀ f ∈ fields, ∃ name, f.1 = .text name)
    (h : ∀ f ∈ fields, ∃ w, sendable? f.2 = some w ∧ R f.2 w) :
    ∃ pairs, sendableFields? fields = some pairs ∧
      Forall₂ (fun f g => f.1 = g.1 ∧ R f.2 g.2) (fields.filter fun f => !isHidden f.1) pairs := by
  induction fields with
  | nil => exact ⟨[], rfl, .nil⟩
  | cons f rest ih =>
    obtain ⟨k, v⟩ := f
    rw [List.forall_mem_cons] at hnamed h
    obtain ⟨⟨name, hname⟩, hnamed⟩ := hnamed
    obtain ⟨⟨w, hw, hR⟩, hrest⟩ := h
    obtain rfl : k = .text name := hname
    obtain ⟨pairs, hpairs, hall⟩ := ih hnamed hrest
    cases hk : isHidden (.text name) with
    | true =>
      refine ⟨pairs, (sendableFields?_cons_of_hidden hk).trans hpairs, ?_⟩
      rw [List.filter_cons_of_neg (by simp [hk])]
      exact hall
    | false =>
      refine ⟨(.text name, w) :: pairs, sendableFields?_cons hk hw hpairs, ?_⟩
      rw [List.filter_cons_of_pos (by simp [hk])]
      exact .cons ⟨rfl, hR⟩ hall

theorem forall_iff_of_forall₂ {α β : Type} {P : α → Prop} {Q : β → Prop} {as : List α}
    {bs : List β} (h : Forall₂ (fun a b => Q b ↔ P a) as bs) :
    (∀ b ∈ bs, Q b) ↔ ∀ a ∈ as, P a := by
  induction h with
  | nil => simp
  | cons hab _ ih => rw [List.forall_mem_cons, List.forall_mem_cons, hab, ih]

theorem forall_of_forall₂ {α β : Type} {Q : β → Prop} {as : List α} {bs : List β}
    (h : Forall₂ (fun _ b => Q b) as bs) : ∀ b ∈ bs, Q b :=
  (forall_iff_of_forall₂ (P := fun _ => True) (h.imp fun _ _ hb => iff_of_true hb trivial)).mpr
    fun _ _ => trivial

/-- Fields that are sent under different names are the fields of what is sent. -/
theorem sendable?_object {fields pairs : Fields} (h : sendableFields? fields = some pairs)
    (hdistinct : Fields.Distinct pairs) : sendable? (.object fields) = some (.object pairs) := by
  rw [sendable?, h, Option.map_some, Fields.ofPairs_of_distinct hdistinct]

theorem sends_list {items : List Value} (h : ∀ v ∈ items, ∃ w, Sends v w) :
    ∃ w, Sends (.list items) w := by
  obtain ⟨ws, hws, hall⟩ := allSendable?_eq fun v hv => (h v hv).imp fun w hw => ⟨hw.sent, hw⟩
  refine ⟨.list ws, ?_, .list (forall_of_forall₂ (hall.imp fun _ _ hw => hw.spelled)),
    .list (forall_of_forall₂ (hall.imp fun _ _ hw => hw.shown)), fun hshown => ?_, ?_⟩
  · rw [sendable?, hws]
    rfl
  · have hsame := ((forall₂_and_left _ _).mpr ⟨(shown_list_iff _).mp hshown, hall⟩).imp
      fun v w hw => (hw.2.same hw.1).symm
    rw [List.forall₂_eq_eq_eq] at hsame
    rw [hsame]
  · rw [Value.offence?, Value.itemsOffence?_eq_none_iff, writable_list_iff]
    exact forall_iff_of_forall₂ (hall.imp fun _ _ hw => hw.writable)

theorem sends_object {fields : Fields} (hdistinct : Fields.Distinct fields)
    (hnamed : ∀ f ∈ fields, ∃ name, f.1 = .text name) (h : ∀ f ∈ fields, ∃ w, Sends f.2 w) :
    ∃ w, Sends (.object fields) w := by
  obtain ⟨pairs, hpairs, hall⟩ :=
    sendableFields?_eq hnamed fun f hf => (h f hf).imp fun w hw => ⟨hw.sent, hw⟩
  have hkept := (forall₂_and_left _ _).mpr
    ⟨fun f hf => (⟨List.mem_filter.mp hf |>.1, by simpa using (List.mem_filter.mp hf).2⟩ :
      f ∈ fields ∧ isHidden f.1 = false), hall⟩
  have hnames : (fields.filter fun f => !isHidden f.1).map Prod.fst = pairs.map Prod.fst := by
    rw [← List.forall₂_eq_eq_eq, List.forall₂_map_left_iff, List.forall₂_map_right_iff]
    exact hall.imp fun _ _ hg => hg.1
  have hpairsDistinct : Fields.Distinct pairs := by
    rw [Fields.distinct_iff, ← hnames, ← Fields.distinct_iff]
    exact hdistinct.filter _
  have hpairsNamed : ∀ g ∈ pairs, ∃ name, g.1 = .text name :=
    forall_of_forall₂ (hkept.imp fun f g hg => hg.2.1 ▸ hnamed f hg.1.1)
  refine ⟨.object pairs, sendable?_object hpairs hpairsDistinct,
    .object hpairsDistinct hpairsNamed (forall_of_forall₂ (hall.imp fun _ _ hg => hg.2.spelled)),
    .object (forall_of_forall₂ (hkept.imp fun _ _ hg => hg.2.1 ▸ hg.1.2))
      (forall_of_forall₂ (hall.imp fun _ _ hg => hg.2.shown)), fun hshown => ?_, ?_⟩
  · rw [shown_object_iff] at hshown
    have hfilter : (fields.filter fun f => !isHidden f.1) = fields :=
      List.filter_eq_self.mpr fun f hf => by simp [(hshown f hf).1]
    rw [hfilter] at hall
    have hsame := ((forall₂_and_left _ _).mpr ⟨hshown, hall⟩).imp
      fun f g hg => (Prod.ext hg.2.1 (hg.2.2.same hg.1.2).symm : f = g)
    rw [List.forall₂_eq_eq_eq] at hsame
    rw [hsame]
  · rw [Value.offence?_object, writable_object_iff]
    have hiff := forall_iff_of_forall₂ (hall.imp fun _ _ hg => hg.2.writable)
    constructor
    · intro hpairs f hf hshown
      exact hiff.mp (fun g hg => (hpairs g hg).2) f (by simp [hf, hshown])
    · intro hfields g hg
      refine ⟨hpairsNamed g hg, hiff.mpr (fun f hf => ?_) g hg⟩
      obtain ⟨hf, hshown⟩ := List.mem_filter.mp hf
      exact hfields f hf (by simpa using hshown)

end Parts

/-- Every value that has a text is sent. -/
theorem exists_sends {v : Value} (h : v.Spelled) : ∃ w, Sends v w := by
  induction h with
  | atom ha => exact ⟨_, sends_atom ha⟩
  | list _ ih => exact sends_list ih
  | object hdistinct hnamed _ ih => exact sends_object hdistinct hnamed ih

theorem Sends.sentAs {v w : Value} (h : Sends v w) (hv : v.Storable) : SentAs v w :=
  ⟨h.sent, h.spelled.plain.storable (h.writable.mpr (writable_of_storable hv)), h.shown, h.same⟩

/-- Every storable value is sent. -/
theorem exists_sentAs {v : Value} (h : v.Storable) : ∃ w, SentAs v w :=
  (exists_sends h.spelled).imp fun _ hw => hw.sentAs h

theorem SentAs.of_shown {v : Value} (h : v.Storable) (hv : Shown v) : SentAs v v := by
  obtain ⟨w, hw⟩ := exists_sentAs h
  have heq := hw.same hv
  subst heq
  exact hw

/-! ## Answers -/

theorem sent?_body {status : Nat} {fields : List (String × Value)} {v : Value}
    (h : sendable? (.ofFields fields) = some v) (hv : v.Storable) :
    (Answer.body status fields).sent? = some (status, v) := by
  obtain ⟨t, ht, -⟩ := Json.valueOfText_text Json.regular_compact hv .strict
  unfold sent?
  simp only [h, bind, Option.bind, Json.compactText, ht]
  rfl

/-- A body that has a text is sent just if it is writable. -/
theorem sent?_isSome_iff (status : Nat) {fields : List (String × Value)}
    (h : (Value.ofFields fields).Spelled) :
    (Answer.body status fields).sent?.isSome = true ↔ Writable (.ofFields fields) := by
  obtain ⟨w, hw⟩ := exists_sends h
  rw [← hw.writable]
  constructor
  · intro hsome
    unfold sent? at hsome
    simp only [hw.sent, bind, Option.bind] at hsome
    cases htext : Json.compactText w with
    | error f =>
      rw [htext] at hsome
      cases hsome
    | ok text =>
      obtain ⟨chars, hchars, -⟩ := map_eq_ok_iff.mp htext
      exact Json.offence?_of_write rfl hw.spelled hchars
  · intro hoffence
    rw [sent?_body hw.sent (hw.spelled.plain.storable hoffence)]
    rfl

theorem shown_issues {issues : List Issue} (h : ∀ i ∈ issues, i.detail = .null) :
    (Issue.listValue issues).Storable ∧ Shown (Issue.listValue issues) := by
  have hall : ∀ i ∈ issues, i.toValue.Storable ∧ Shown i.toValue := by
    intro i hi
    have hpath : (i.path.elim .null .text : Value).Storable ∧ Shown (i.path.elim .null .text) := by
      cases i.path <;> exact ⟨.atom rfl, .atom _⟩
    simp +decide [Issue.toValue, h i hi, hpath, Atom.offence?]
  unfold Issue.listValue
  constructor
  · refine .list fun v hv => ?_
    obtain ⟨i, hi, rfl⟩ := List.mem_map.mp hv
    exact (hall i hi).1
  · refine .list fun v hv => ?_
    obtain ⟨i, hi, rfl⟩ := List.mem_map.mp hv
    exact (hall i hi).2

/-- The body of an answer that grants a request. -/
def okBody (payload : List (String × Value)) (warnings : List Issue) : Value :=
  .ofFields (("ok", .bool true) :: payload ++
    [("errors", .list []), ("warnings", Issue.listValue warnings)])

/-- An answer that grants a request is sent as it is if nothing is hidden in it. -/
theorem sent?_ok (payload : List (String × Value)) (warnings : List Issue)
    (hnames : ("ok" :: payload.map Prod.fst ++ ["errors", "warnings"]).Nodup)
    (hpayload : ∀ p ∈ payload, isHidden (.text p.1) = false ∧ p.2.Storable ∧ Shown p.2)
    (hwarnings : ∀ i ∈ warnings, i.detail = .null) :
    (Answer.ok payload warnings).sent? = some (200, okBody payload warnings) := by
  obtain ⟨hstorable, hshown⟩ := shown_issues hwarnings
  have hall : ∀ p ∈ ("ok", Value.bool true) :: payload ++
      [("errors", .list []), ("warnings", Issue.listValue warnings)],
      isHidden (.text p.1) = false ∧ p.2.Storable ∧ Shown p.2 := by
    intro p hp
    simp only [List.cons_append, List.mem_cons, List.mem_append, List.not_mem_nil, or_false] at hp
    rcases hp with rfl | hp | rfl | rfl
    · exact ⟨by decide, .atom rfl, .atom _⟩
    · exact hpayload p hp
    · exact ⟨by decide, .list (by simp), .list (by simp)⟩
    · exact ⟨(by decide : isHidden (.text "warnings") = false), hstorable, hshown⟩
  have hbody : (okBody payload warnings).Storable :=
    (Value.storable_ofFields_iff _).mpr ⟨by simpa using hnames, fun p hp => (hall p hp).2.1⟩
  have hsent : SentAs (okBody payload warnings) (okBody payload warnings) :=
    .of_shown hbody
      ((shown_ofFields_iff _).mpr fun p hp => ⟨(hall p hp).1, (hall p hp).2.2⟩)
  exact sent?_body hsent.sent hbody

/-- An answer that grants a request is sent just if what it tells is writable. -/
theorem sent?_ok_isSome_iff {payload : List (String × Value)} {warnings : List Issue}
    (hnames : ("ok" :: payload.map Prod.fst ++ ["errors", "warnings"]).Nodup)
    (hpayload : ∀ p ∈ payload, isHidden (.text p.1) = false ∧ p.2.Spelled)
    (hwarnings : ∀ i ∈ warnings, i.detail = .null) :
    (Answer.ok payload warnings).sent?.isSome = true ↔ ∀ p ∈ payload, Writable p.2 := by
  have hlist := (shown_issues hwarnings).1
  have hempty : (Value.list []).Storable := .list (List.forall_mem_nil _)
  have hbody : (okBody payload warnings).Spelled := by
    refine (Value.madeOf_ofFields_iff _).mpr ⟨by simpa using hnames, ?_⟩
    simp only [List.cons_append, List.forall_mem_cons, List.forall_mem_append]
    exact ⟨.atom (.inl rfl), fun p hp => (hpayload p hp).2, hempty.spelled, hlist.spelled,
      List.forall_mem_nil _⟩
  refine (sent?_isSome_iff 200 hbody).trans ?_
  simp only [writable_ofFields_iff, List.cons_append, List.forall_mem_cons,
    List.forall_mem_append]
  constructor
  · intro h p hp
    exact h.2.1 p hp (hpayload p hp).1
  · intro h
    exact ⟨fun _ => .atom rfl, fun p hp _ => h p hp, fun _ => writable_of_storable hempty,
      fun _ => writable_of_storable hlist, List.forall_mem_nil _⟩

/-! ## Order and shape -/

theorem shown_sorted_iff {v : Value} (h : v.Plain) : Shown (Json.sorted v) ↔ Shown v := by
  induction h with
  | atom a => rfl
  | list _ ih =>
    rw [Json.sorted, Json.sortedItems_eq, shown_list_iff, shown_list_iff, List.forall_mem_map]
    exact forall₂_congr ih
  | @object fields _ _ _ ih =>
    have hperm := Json.sortedFields_perm fields
    rw [Json.sorted, shown_object_iff, shown_object_iff]
    constructor
    · intro hsorted f hf
      obtain ⟨hname, hvalue⟩ := hsorted _ (hperm.mem_iff.mpr (List.mem_map_of_mem hf))
      exact ⟨hname, (ih f hf).mp hvalue⟩
    · intro hfields g hg
      obtain ⟨f, hf, rfl⟩ := List.mem_map.mp (hperm.subset hg)
      exact ⟨(hfields f hf).1, (ih f hf).mpr (hfields f hf).2⟩

theorem Shown.get? {v w : Value} {name : String} (h : Shown v) (hw : v.get? name = some w) :
    Shown w := by
  obtain ⟨fields, hfields, hget⟩ := Option.bind_eq_some_iff.mp hw
  obtain rfl := Value.fields?_eq_some hfields
  exact ((shown_object_iff fields).mp h _ (Fields.mem_of_get? hget)).2

theorem Shown.children {v : Value} (h : Shown v) : ∀ c ∈ v.children, Shown c := by
  intro c hc
  obtain ⟨items, hget, hmem⟩ := Value.exists_of_mem_children hc
  exact (shown_list_iff items).mp (h.get? hget) c hmem

theorem Shown.set {fields : Fields} (h : Shown (.object fields)) {name : String} {v : Value}
    (hname : isHidden (.text name) = false) (hv : Shown v) :
    Shown (.object (Fields.set fields name v)) := by
  rw [shown_object_iff] at h ⊢
  intro f hf
  rcases Fields.mem_put hf with hf | ⟨hvalue, hkey | ⟨g, hg, hkey⟩⟩
  · exact h f hf
  · rw [hkey, hvalue]
    exact ⟨hname, hv⟩
  · rw [hkey, hvalue]
    exact ⟨(h g hg).1, hv⟩

theorem lasting_shown : Tree.Lasting Shown where
  children := Shown.children
  id h _ := h.set (by decide) (.atom _)
  props h := h.set (by decide) shown_empty
  childList h hitems := h.set (by decide) (.list hitems)
  leaf h := (shown_object_iff _).mpr fun f hf =>
    (shown_object_iff _).mp h f (List.mem_filter.mp hf).1

theorem shown_shaped {v : Value} (h : Shown v) : Shown (Document.shaped v) :=
  Document.lasting_shaped lasting_shown v h

end PageBuilder.Answer
