import PageBuilder.Proofs.Json.CanonicalForm
import PageBuilder.Proofs.Tree.InPlace
import PageBuilder.Proofs.Value.Closed

/-!
What an edit of one node in its place does to the JSON value that a tree stands for, and to the
digest.

* `sameJson_set_iff`: a field that is set stays the same just if it was there with the same value;
* `sameJson_editAt_iff`: a tree stays the same just if the edited node does;
* `digest_eq_iff`: two trees have one digest just if they stand for one JSON value, or else the
  texts of both collide.
-/

namespace PageBuilder

/-! ## Objects -/

theorem Fields.mem_set {fields : Fields} (h : Distinct fields) {name : String} {w : Value}
    {f : Key × Value} (hf : f ∈ set fields name w) :
    f = (.text name, w) ∨ f ∈ fields ∧ f.1 ≠ .text name := by
  unfold set at hf
  induction fields with
  | nil => exact .inl (List.mem_singleton.mp hf)
  | cons field rest ih =>
    obtain ⟨j, u⟩ := field
    obtain ⟨hfirst, hrest⟩ := List.pairwise_cons.mp h
    unfold put at hf
    split at hf
    · rename_i hj
      obtain rfl := (Key.alike_text_iff j name).mp hj
      rcases List.mem_cons.mp hf with rfl | hf
      · exact .inl rfl
      · refine .inr ⟨List.mem_cons_of_mem _ hf, fun hname => ?_⟩
        have halike := hfirst f hf
        rw [hname, hj] at halike
        cases halike
    · rename_i hj
      rw [Key.alike_text_iff] at hj
      rcases List.mem_cons.mp hf with rfl | hf
      · exact .inr ⟨List.mem_cons_self .., hj⟩
      · rcases ih hrest hf with rfl | ⟨hf, hname⟩
        · exact .inl rfl
        · exact .inr ⟨List.mem_cons_of_mem _ hf, hname⟩

namespace Value

theorem sameJson_refl {v : Value} (h : v.Proper) (hj : v.offence? = none) : v.SameJson v :=
  (Json.form_eq_iff h h hj hj).mp rfl

/-- What stands for the same JSON value as a value free of offences is free of them, too. -/
theorem SameJson.offence? {v w : Value} (h : v.SameJson w) (hj : v.offence? = none) :
    w.offence? = none := by
  induction h with
  | atom a => exact hj
  | @sequence v w items others hmembers hmembers' hlength _ ih =>
    refine (offence?_of_items? hmembers').mpr fun u hu => ?_
    obtain ⟨i, hi⟩ := List.mem_iff_getElem?.mp hu
    have hlt : i < items.length := hlength ▸ (List.getElem?_eq_some_iff.mp hi).1
    have hpair : (items[i], u) ∈ items.zip others :=
      List.mem_of_getElem? (List.getElem?_zip_eq_some.mpr ⟨List.getElem?_eq_getElem hlt, hi⟩)
    exact ih _ hpair ((offence?_of_items? hmembers).mp hj _ (List.getElem_mem hlt))
  | @object fields others hnames _ ih =>
    rw [offence?_object] at hj ⊢
    intro g hg
    obtain ⟨f, hf, hname⟩ := List.mem_map.mp (hnames.symm.subset (List.mem_map_of_mem hg))
    exact ⟨hname ▸ (hj f hf).1, ih f hf g hg hname (hj f hf).2⟩

/-- A sequence of fixed length stands for the same JSON value as the list of its members. -/
theorem sameJson_list {v : Value} {items : List Value} (hitems : v.items? = some items)
    (h : v.Proper) (hj : v.offence? = none) : v.SameJson (.list items) := by
  have hmembers := (offence?_of_items? hitems).mp hj
  refine (Json.form_eq_iff h ((proper_list_iff items).mpr (h.items hitems)) hj
    ((offence?_of_items? rfl).mpr hmembers)).mp ?_
  rw [Json.form_of_items? hitems, Json.form_of_items? rfl]

theorem sameJson_object {v : Value} {fields : Fields} (h : v.SameJson (.object fields)) :
    ∃ others, v = .object others := by
  cases h with
  | sequence _ hmembers => cases hmembers
  | @object others => exact ⟨others, rfl⟩

section Set

variable {fields : Fields} (h : (Value.object fields).Proper)
  (hj : (Value.object fields).offence? = none)

include h hj

/-- Of distinct texts as names, one name has one value. -/
theorem eq_of_name_eq {f g : Key × Value} (hf : f ∈ fields) (hg : g ∈ fields) (hname : f.1 = g.1) :
    f.2 = g.2 := by
  obtain ⟨name, hfname⟩ := ((offence?_object fields).mp hj f hf).1
  have hdistinct := ((proper_object_iff fields).mp h).1
  have hfget : Fields.get? fields name = some f.2 :=
    Fields.get?_of_mem hdistinct (by rw [← hfname]; exact hf)
  have hgget : Fields.get? fields name = some g.2 :=
    Fields.get?_of_mem hdistinct (by rw [← hfname, hname]; exact hg)
  exact Option.some.inj (hfget.symm.trans hgget)

/-- A field that is set stays the same just if it was there with the same value. -/
theorem sameJson_set_iff (name : String) (w : Value) :
    (Value.object fields).SameJson (.object (Fields.set fields name w)) ↔
      ∃ u, Fields.get? fields name = some u ∧ u.SameJson w := by
  have hdistinct := ((proper_object_iff fields).mp h).1
  constructor
  · intro hsame
    cases hsame with
    | sequence hmembers _ => cases hmembers
    | object hnames hsame =>
      have hset := Fields.mem_of_get? (Fields.get?_set fields name w)
      have hmem := hnames.symm.subset (List.mem_map_of_mem (f := Prod.fst) hset)
      obtain ⟨f, hf, hname⟩ := List.mem_map.mp hmem
      refine ⟨f.2, Fields.get?_of_mem hdistinct ?_, hsame f hf _ hset hname⟩
      have hpair : f = (Key.text name, f.2) := Prod.ext hname rfl
      rwa [← hpair]
  · rintro ⟨u, hget, hsame⟩
    have hu := Fields.mem_of_get? hget
    have hnames : (Fields.set fields name w).map Prod.fst = fields.map Prod.fst :=
      Fields.map_fst_put w ⟨_, hu, (Key.alike_text_iff _ _).mpr rfl⟩
    refine .object (by rw [hnames]) fun f hf g hg hname => ?_
    rcases Fields.mem_set hdistinct hg with rfl | ⟨hg, -⟩
    · rw [eq_of_name_eq h hj hf hu hname]
      exact hsame
    · rw [← eq_of_name_eq h hj hf hg hname]
      exact sameJson_refl (((proper_object_iff fields).mp h).2 f hf)
        ((offence?_object fields).mp hj f hf).2

end Set

/-- The same for the fields of any node. -/
theorem sameJson_putField_iff {n : Value} (ho : n.isObject) (h : n.Proper) (hj : n.offence? = none)
    (name : String) (w : Value) :
    n.SameJson (Tree.putField name w n) ↔ ∃ u, n.get? name = some u ∧ u.SameJson w := by
  obtain ⟨fields, rfl⟩ := (isObject_iff n).mp ho
  exact sameJson_set_iff h hj name w

/-! ## Lists -/

/-- A list with a member that is changed stays the same just if the member does. -/
theorem sameJson_modify_iff {items : List Value} (h : ∀ v ∈ items, v.Proper ∧ v.offence? = none)
    {i : Nat} {c : Value} (hc : items[i]? = some c) (g : Value → Value) :
    (Value.list items).SameJson (.list (items.modify i g)) ↔ c.SameJson (g c) := by
  have hlength : items.length = (items.modify i g).length := (List.length_modify ..).symm
  constructor
  · intro hsame
    cases hsame with
    | sequence hmembers hmembers' _ hsame =>
      cases hmembers
      cases hmembers'
      refine hsame (c, g c) (List.mem_of_getElem? (i := i) ?_)
      rw [List.getElem?_zip_eq_some]
      exact ⟨hc, by rw [List.getElem?_modify, hc]; simp⟩
  · intro hsame
    refine .sequence rfl rfl hlength fun p hp => ?_
    obtain ⟨j, hj⟩ := List.mem_iff_getElem?.mp hp
    obtain ⟨hleft, hright⟩ := List.getElem?_zip_eq_some.mp hj
    rw [List.getElem?_modify, hleft, Option.map_eq_map, Option.map_some] at hright
    by_cases hij : i = j
    · subst hij
      rw [hleft] at hc
      cases hc
      rw [if_pos rfl] at hright
      rw [← Option.some.inj hright]
      exact hsame
    · rw [if_neg hij] at hright
      obtain ⟨hp, hpj⟩ := h p.1 (List.mem_of_getElem? hleft)
      rw [← Option.some.inj hright]
      exact sameJson_refl hp hpj

end Value

/-! ## Trees -/

namespace Tree

open Value (SameJson)

variable {v n : Value} {a : List Nat} {f : Value → Value}

/-- Down one step to a child. -/
theorem exists_of_child {c : Value} {i : Nat} (hc : v.children[i]? = some c) :
    ∃ fields items, v = .object fields ∧ Fields.get? fields "children" = some (.list items) ∧
      items[i]? = some c ∧ ∀ g : List Value → List Value,
        editChildren g v = .object (Fields.set fields "children" (.list (g items))) := by
  obtain ⟨fields, rfl⟩ :=
    (Value.isObject_iff v).mp (isObject_of_mem_children (List.mem_of_getElem? hc))
  obtain ⟨items, hitems, -⟩ := Value.exists_of_mem_children (List.mem_of_getElem? hc)
  have hchildren := Value.children_of_list hitems
  refine ⟨fields, items, rfl, hitems, by rwa [← hchildren], fun g => ?_⟩
  rw [editChildren, hchildren]

theorem proper_editAt (h : v.Proper) (hat : nodeAt? v a = some n) (hf : (f n).Proper) :
    (editAt a f v).Proper := by
  induction a generalizing v with
  | nil =>
    cases hat
    exact hf
  | cons i rest ih =>
    obtain ⟨c, hc, hrest⟩ := nodeAt?_cons hat
    obtain ⟨fields, items, rfl, hget, hitem, hedit⟩ := exists_of_child hc
    have hitems : ∀ w ∈ items, w.Proper :=
      (Value.Proper.closed.fields h _ (Fields.mem_of_get? hget)).items rfl
    rw [editAt, hedit]
    refine Value.Proper.closed.set h ((Value.proper_list_iff _).mpr fun w hw => ?_) "children"
    rw [modify_eq_take_cons_drop hitem, List.mem_append, List.mem_cons] at hw
    rcases hw with hw | rfl | hw
    · exact hitems w (List.mem_of_mem_take hw)
    · exact ih (hitems c (List.mem_of_getElem? hitem)) hrest
    · exact hitems w (List.mem_of_mem_drop hw)

/-- A tree stands for the same JSON value as before just if the edited node does. -/
theorem sameJson_editAt_iff (h : v.Proper) (hj : v.offence? = none) (hat : nodeAt? v a = some n) :
    SameJson v (editAt a f v) ↔ SameJson n (f n) := by
  induction a generalizing v with
  | nil =>
    cases hat
    rfl
  | cons i rest ih =>
    obtain ⟨c, hc, hrest⟩ := nodeAt?_cons hat
    obtain ⟨fields, items, rfl, hget, hitem, hedit⟩ := exists_of_child hc
    have hmem := Fields.mem_of_get? hget
    have hitems : ∀ w ∈ items, w.Proper ∧ w.offence? = none := fun w hw =>
      ⟨(Value.Proper.closed.fields h _ hmem).items rfl w hw,
        (Value.offence?_of_items? rfl).mp (Value.offence?_closed.fields hj _ hmem) w hw⟩
    obtain ⟨hcp, hcj⟩ := hitems c (List.mem_of_getElem? hitem)
    rw [editAt, hedit, Value.sameJson_set_iff h hj, ← ih hcp hcj hrest,
      ← Value.sameJson_modify_iff hitems hitem]
    constructor
    · rintro ⟨u, hu, hsame⟩
      rw [hget] at hu
      cases hu
      exact hsame
    · exact fun hsame => ⟨_, hget, hsame⟩

end Tree

/-! ## Digests -/

namespace Json

open Value (SameJson)

/-- The canonical texts of two values are different, and have one hash. -/
def TextsCollide (v w : Value) : Prop :=
  ∃ s t, canonicalText v = .ok s ∧ canonicalText w = .ok t ∧
    Collide (Text.Utf8.encode s) (Text.Utf8.encode t)

theorem digest_eq_ok_iff {v : Value} {d : String} :
    digest v = .ok d ↔ ∃ s, canonicalText v = .ok s ∧ digestText s = d :=
  map_eq_ok_iff

theorem offence?_of_digest {v : Value} {d : String} (h : digest v = .ok d) : v.offence? = none := by
  obtain ⟨s, hs, -⟩ := digest_eq_ok_iff.mp h
  exact ((canonicalText_eq_ok_iff v s).mp hs).1

/-- Two values have one canonical text just if they stand for one JSON value. -/
theorem texts_eq_iff {v w : Value} (hv : v.Proper) (hw : w.Proper) {s t : String}
    (hs : canonicalText v = .ok s) (ht : canonicalText w = .ok t) : s = t ↔ SameJson v w := by
  have hvj := ((canonicalText_eq_ok_iff v s).mp hs).1
  have hwj := ((canonicalText_eq_ok_iff w t).mp ht).1
  rw [← form_eq_iff hv hw hvj hwj]
  constructor
  · rintro rfl
    obtain ⟨s', hs', hreads⟩ := canonicalText_reads hv hvj
    obtain ⟨t', ht', hreadt⟩ := canonicalText_reads hw hwj
    cases hs.symm.trans hs'
    cases ht.symm.trans ht'
    exact Except.ok.inj (hreads.symm.trans hreadt)
  · intro hform
    rw [canonicalText_eq_text_form hv hvj, hform, ← canonicalText_eq_text_form hw hwj] at hs
    exact Except.ok.inj (hs.symm.trans ht)

/-- A value has the digest of another one just if it stands for the same JSON value, or else the
texts of both collide. -/
theorem digest_eq_iff {v w : Value} (hv : v.Proper) (hw : w.Proper) {d : String}
    (hd : digest v = .ok d) :
    digest w = .ok d ↔ SameJson v w ∨ TextsCollide v w := by
  obtain ⟨s, hs, rfl⟩ := digest_eq_ok_iff.mp hd
  constructor
  · intro hdw
    obtain ⟨t, ht, hst⟩ := digest_eq_ok_iff.mp hdw
    rcases (digestText_eq_iff s t).mp hst.symm with heq | hcollide
    · exact .inl ((texts_eq_iff hv hw hs ht).mp heq)
    · exact .inr ⟨s, t, hs, ht, hcollide⟩
  · rintro (hsame | ⟨s', t, hs', ht, hcollide⟩)
    · obtain ⟨t, ht, -⟩ := canonicalText_reads hw (hsame.offence? (offence?_of_digest hd))
      exact digest_eq_ok_iff.mpr ⟨t, ht, by rw [(texts_eq_iff hv hw hs ht).mpr hsame]⟩
    · cases hs.symm.trans hs'
      exact digest_eq_ok_iff.mpr ⟨t, ht, ((digestText_eq_iff s t).mpr (.inr hcollide)).symm⟩

end Json

end PageBuilder
