import PageBuilder.Proofs.Store.Reorder
import PageBuilder.Proofs.Tree.Lookup
import PageBuilder.Proofs.Tree.Update
import PageBuilder.Proofs.Value.Closed
import PageBuilder.Proofs.Value.Merge

/-!
What an update does.

* `Takes`: the fields that a node takes; `Sound.allowsFields_iff`: there are no others;
* `outline_mapNodes`: what is seen of the nodes of a revised tree;
* `Updated`: what a tree is after one node was updated;
* `Store.update_updates`: an update is made for a node that takes the fields, changes this node only,
  and can be repeated without a change unless a key of the fields is not like itself.
-/

namespace PageBuilder.Tree

/-- The fields that a node takes: nothing for its children, no other identifier, and no other type
but a kind of the same sort, where a page is neither made nor unmade. -/
structure Takes (n : Value) (news : Fields) : Prop where
  children : ∀ v, (Key.text "children", v) ∉ news
  id : ∀ v, (Key.text "id", v) ∈ news → v = n.field "id"
  type : ∀ v, (Key.text "type", v) ∈ news → v = n.field "type" ∨
    ∃ kind, ComponentKind.ofValue? v = some kind ∧ kind ≠ .page ∧ n.kind? ≠ some .page ∧
      kind.isContainer = n.isContainer

/-- What a tree is after one of its nodes was replaced by another one with the same children. -/
structure Updated (root n n' root' : Value) : Prop where
  found : find root' (n.field "id") = .ok (some n')
  others : ∃ before after, nodes root = before ++ n :: after ∧
    (nodes root').map outline = before.map outline ++ outline n' :: after.map outline
  structure_eq : (nodes root').map (fun m => (m.field "id", (outline m).2)) =
    (nodes root).map fun m => (m.field "id", (outline m).2)

/-! ## Fields that are taken -/

section Takes

variable {n : Value}

theorem type_of_kind? {kind : ComponentKind} (hk : n.kind? = some kind) :
    n.field "type" = .text kind.name := by
  unfold Value.kind? ComponentKind.ofValue? at hk
  split at hk
  · rename_i s hs
    unfold ComponentKind.ofText? at hk
    have hname := List.find?_some hk
    rw [hs, ← beq_iff_eq.mp hname]
  · cases hk

theorem kind?_eq_page_iff : n.kind? = some .page ↔
    (n.field "type").isTextOf ComponentKind.page.name = true := by
  rw [Value.isTextOf_iff]
  refine ⟨type_of_kind?, fun htype => ?_⟩
  rw [Value.kind?, htype]
  rfl

theorem allowsKind_iff {v : Value} : allowsKind n v = true ↔
    ∃ kind, ComponentKind.ofValue? v = some kind ∧ kind ≠ .page ∧ n.kind? ≠ some .page ∧
      kind.isContainer = n.isContainer := by
  unfold allowsKind
  cases hins : ComponentKind.insertable? v with
  | none =>
    refine ⟨fun hno => (Bool.false_ne_true hno).elim, ?_⟩
    rintro ⟨kind, hof, hne, -⟩
    rw [Fresh.insertable?_eq_some_iff.mpr ⟨hof, hne⟩] at hins
    cases hins
  | some kind =>
    obtain ⟨hof, hne⟩ := Fresh.insertable?_eq_some_iff.mp hins
    simp only [Bool.and_eq_true, Bool.not_eq_true', ← Bool.not_eq_true, ← kind?_eq_page_iff,
      beq_iff_eq, hof, Option.some.injEq]
    exact ⟨fun hboth => ⟨kind, rfl, hne, hboth⟩, fun ⟨_, heq, _, hboth⟩ => heq ▸ hboth⟩

/-- A node that was given fields takes them again. -/
theorem Takes.putFields {news : Fields} (hnews : Fields.Distinct news) (ho : n.isObject)
    (htakes : Takes n news) : Takes (putFields news n) news := by
  obtain ⟨old, rfl⟩ := (Value.isObject_iff n).mp ho
  have hgiven : ∀ (name : String) v, (Key.text name, v) ∈ news →
      (Tree.putFields news (.object old)).field name = v := by
    intro name v hv
    show (Fields.get? (Fields.merge old news) name).getD .null = v
    rw [Fields.get?_merge_of_mem hnews hv, Option.getD_some]
  exact ⟨htakes.children, fun v hv => (hgiven "id" v hv).symm,
    fun v hv => .inl (hgiven "type" v hv).symm⟩

theorem Sound.allowsFields_iff (h : Sound n) {news : Fields} :
    allowsFields n news = true ↔ Takes n news := by
  obtain ⟨x, hid, -⟩ := h.named
  obtain ⟨kind, hkind⟩ := Option.isSome_iff_exists.mp h.known
  have htype := type_of_kind? hkind
  rw [allowsFields, List.all_eq_true]
  constructor
  · intro hall
    refine ⟨fun v hv => ?_, fun v hv => ?_, fun v hv => ?_⟩
    · have hallows := hall _ hv
      simp [allowsField] at hallows
    · have hsame : v.same (n.field "id") = true := hall _ hv
      rw [hid, Value.same_text_iff] at hsame
      rw [hsame, hid]
    · have hallows : (v.same (n.field "type") || allowsKind n v) = true := hall _ hv
      rw [Bool.or_eq_true, allowsKind_iff, htype, Value.same_text_iff, ← htype] at hallows
      exact hallows
  · rintro htakes f hf
    unfold allowsField
    split
    · exact absurd hf (htakes.children _)
    · rw [htakes.id _ hf, hid, Value.same_text_iff]
    · rw [Bool.or_eq_true, allowsKind_iff, htype, Value.same_text_iff, ← htype]
      exact htakes.type _ hf
    · rfl

end Takes

/-! ## Revised trees -/

theorem outline_mapNodes {f : Value → Value} (hf : Revision f) (v : Value) :
    outline (mapNodes f v) = outline (f v) := by
  have hids : ∀ items : List Value, (items.map (mapNodes f)).map (fun c => c.field "id") =
      items.map fun c => c.field "id" := by
    intro items
    rw [List.map_map]
    exact List.map_congr_left fun c _ => id_mapNodes hf c
  rw [outline, outline, read_mapNodes hf bare_editChildren, childList?_mapNodes hf, hf.childList?,
    Option.map_map]
  exact congrArg (Prod.mk _) (congrArg (Option.map · v.childList?) (funext hids))

section Update

variable {root n : Value} {x : String} {news : Fields} (h : WellFormed root) (hn : n ∈ nodes root)
  (hx : n.field "id" = .text x) (htakes : Takes n news)

include h hn hx

/-- Every other node is left as it is. -/
theorem WellFormed.revise_eq_self {m : Value} (hm : m ∈ nodes root) (hne : m ≠ n) (fields : Value) :
    revise (.text x) fields m = m := by
  refine revise_of_not_reaches (Bool.eq_false_iff.mpr fun hreaches => hne ?_)
  exact h.eq_of_id_eq hn hm ((id_of_reaches hreaches).trans hx.symm)

/-- The nodes before and after a node are other nodes. -/
theorem WellFormed.exists_split : ∃ before after, nodes root = before ++ n :: after ∧
    (∀ m ∈ before, m ∈ nodes root ∧ m ≠ n) ∧ ∀ m ∈ after, m ∈ nodes root ∧ m ≠ n := by
  obtain ⟨before, after, hsplit⟩ := List.append_of_mem hn
  have hnodup : (nodes root).Nodup := List.Nodup.of_map _ h.distinct
  rw [hsplit, List.nodup_append, List.nodup_cons] at hnodup
  refine ⟨before, after, hsplit, fun m hm => ⟨?_, ?_⟩, fun m hm => ⟨?_, ?_⟩⟩
  · rw [hsplit]
    exact List.mem_append_left _ hm
  · exact hnodup.2.2 m hm n (List.mem_cons_self ..)
  · rw [hsplit]
    exact List.mem_append_right _ (List.mem_cons_of_mem _ hm)
  · rintro rfl
    exact hnodup.2.1.1 hm

include htakes

/-- The tree is revised, since the node takes the fields. -/
theorem WellFormed.update_eq_mapNodes :
    Tree.update root (.text x) (.object news) =
        .ok (some (mapNodes (revise (.text x) (.object news)) root)) ∧
      revise (.text x) (.object news) n = putFields news n := by
  have hallows : allowsFields n news = true := (h.sound n hn).allowsFields_iff.mpr htakes
  have hreaches : reaches (.text x) (.object news) n = true :=
    reaches_iff.mpr ⟨x, news, rfl, rfl, hx, hallows⟩
  refine ⟨?_, revise_of_reaches hreaches rfl⟩
  rw [h.update_eq_ite, if_pos (List.any_eq_true.mpr ⟨n, hn, hreaches⟩)]

/-- The node is not below itself, so nothing changes below it. -/
theorem WellFormed.mapNodes_eq_putFields :
    mapNodes (revise (.text x) (.object news)) n = putFields news n := by
  have hbelow : n.children.map (mapNodes (revise (.text x) (.object news))) = n.children := by
    refine map_mapNodes_eq_self (revision_revise _ _) fun m hm => h.revise_eq_self hn hx ?_ ?_ _
    · refine nodes_subset hn ?_
      rw [nodes_eq]
      exact List.mem_cons_of_mem _ hm
    · rintro rfl
      obtain ⟨c, hc, -, hmc⟩ := mem_nodesOf.mp hm
      exact notMem_nodes_of_child hc hmc
  exact (mapNodes_of_children hbelow).trans (h.update_eq_mapNodes hn hx htakes).2

/-- Every other node is seen as before. -/
theorem WellFormed.updated_mapNodes
    (hroot' : WellFormed (mapNodes (revise (.text x) (.object news)) root)) :
    Updated root n (putFields news n) (mapNodes (revise (.text x) (.object news)) root) := by
  have hf := revision_revise (.text x) (.object news)
  refine ⟨?_, ?_, ?_⟩
  · rw [hx, ← h.mapNodes_eq_putFields hn hx htakes]
    refine hroot'.find_eq_some ?_ ((id_mapNodes hf n).trans hx)
    rw [nodes_mapNodes hf]
    exact List.mem_map_of_mem hn
  · obtain ⟨before, after, hsplit, hbefore, hafter⟩ := h.exists_split hn hx
    have hothers : ∀ m, m ∈ nodes root ∧ m ≠ n →
        outline (mapNodes (revise (.text x) (.object news)) m) = outline m := fun m hm => by
      rw [outline_mapNodes hf, h.revise_eq_self hn hx hm.1 hm.2]
    refine ⟨before, after, hsplit, ?_⟩
    rw [nodes_mapNodes hf, hsplit, List.map_map, List.map_append, List.map_cons]
    refine congrArg₂ (· ++ ·) (List.map_congr_left fun m hm => hothers m (hbefore m hm))
      (congrArg₂ List.cons ?_ (List.map_congr_left fun m hm => hothers m (hafter m hm)))
    rw [Function.comp_apply, h.mapNodes_eq_putFields hn hx htakes]
  · rw [nodes_mapNodes hf, List.map_map]
    refine List.map_congr_left fun m _ => ?_
    rw [Function.comp_apply, id_mapNodes hf, outline_mapNodes hf, outline, hf.childList?]
    rfl

/-- A node that takes the fields is updated, and no other node is. -/
theorem WellFormed.update_eq_some : ∃ root',
    Tree.update root (.text x) (.object news) = .ok (some root') ∧ WellFormed root' ∧
      Updated root n (putFields news n) root' := by
  have hupdate := (h.update_eq_mapNodes hn hx htakes).1
  have hroot' := h.update hupdate
  exact ⟨_, hupdate, hroot', h.updated_mapNodes hn hx htakes hroot'⟩

/-- Once the node has the fields, the same update is made again, and changes something just if the
fields are changed by being put in a second time. -/
theorem WellFormed.update_again {old : Fields} (hold : n = .object old) {root' : Value}
    (hagain : Tree.update root (.text x) (.object news) = .ok (some root')) :
    root' = root ↔ Fields.merge old news = old := by
  obtain ⟨hupdate, hself⟩ := h.update_eq_mapNodes hn hx htakes
  cases hagain.symm.trans hupdate
  have hput : putFields news n = .object (Fields.merge old news) := by
    rw [hold]
    rfl
  constructor
  · intro hsame
    have hthen := (h.updated_mapNodes hn hx htakes (h.update hupdate)).found
    rw [hsame, hx, h.find_eq_some hn hx, hput, hold] at hthen
    exact (Value.object.inj (Option.some.inj (Except.ok.inj hthen))).symm
  · intro hmerge
    refine mapNodes_eq_self (revision_revise _ _) fun m hm => ?_
    by_cases hmn : m = n
    · rw [hmn, hself, hput, hmerge, hold]
    · exact h.revise_eq_self hn hx hm hmn _

end Update

end PageBuilder.Tree

namespace PageBuilder

open PageBuilder.Tree

theorem Value.Closed.nodes {P : Value → Prop} (hP : Value.Closed P) {v : Value} (h : P v) :
    ∀ n ∈ nodes v, P n := by
  induction v using Value.children_induction with
  | step v ih =>
    intro n hn
    rw [nodes_eq] at hn
    rcases List.mem_cons.mp hn with rfl | hn
    · exact h
    · obtain ⟨c, hc, -, hn⟩ := mem_nodesOf.mp hn
      obtain ⟨items, hitems, hmem⟩ := Value.exists_of_mem_children hc
      have hlist := hP.field h "children"
      rw [Value.field_eq, hitems] at hlist
      exact ih c hc (hP.items hlist rfl c hmem) n hn

namespace Store

/-- What an update makes of a store, and what the same update makes of that. -/
structure Updates (s : Store) (n : Value) (news : Fields) (t : Store) : Prop where
  done : s.update (n.field "id") (.object news) = (.ok true, t)
  others : t = s.withRoot t.root
  tree : ∃ old, n = .object old ∧ Updated s.root n (.object (Fields.renewed old news)) t.root
  again : (t.update (n.field "id") (.object news)).1 = .ok true
  again_eq_iff : (t.update (n.field "id") (.object news)).2 = t ↔
    ∀ f ∈ news, f.1.alike f.1 = true

section Update

variable {s : Store} (h : WellFormed s.root) {news : Fields} (hnews : Fields.Distinct news)

include h

theorem update_of_not_takes {id : Value}
    (hno : ¬ ∃ n ∈ nodes s.root, n.field "id" = id ∧ Takes n news) :
    s.update id (.object news) = (.ok false, s) := by
  rw [Store.update, h.update_eq_ite, if_neg]
  · rfl
  · rw [List.any_eq_true]
    rintro ⟨n, hn, hreaches⟩
    obtain ⟨x, fields, rfl, hfields, hid, hallows⟩ := reaches_iff.mp hreaches
    cases hfields
    exact hno ⟨n, hn, hid, (h.sound n hn).allowsFields_iff.mp hallows⟩

include hnews

theorem updates_of_takes (hproper : s.root.Proper) {n : Value} (hn : n ∈ nodes s.root)
    (htakes : Takes n news) : ∃ t, Updates s n news t := by
  obtain ⟨x, hx, -⟩ := (h.sound n hn).named
  have ho : n.isObject = true := (h.sound n hn).isObject
  obtain ⟨old, hold⟩ := (Value.isObject_iff n).mp ho
  have hdistinct : Fields.Distinct old := by
    have hnode := Value.Proper.closed.nodes hproper n hn
    rw [hold] at hnode
    exact ((Value.proper_object_iff old).mp hnode).1
  obtain ⟨root', hupdate, hroot', hupdated⟩ := h.update_eq_some hn hx htakes
  have hput : putFields news n = .object (Fields.merge old news) := by rw [hold]; rfl
  -- the node that is found now has the identifier still, and takes the fields again
  have htakes' := htakes.putFields hnews ho
  obtain ⟨hn', hid'⟩ := hroot'.mem_of_find hupdated.found
  have hx' : (putFields news n).field "id" = .text x := hid'.trans hx
  obtain ⟨root'', hagain, -, -⟩ := hroot'.update_eq_some hn' hx' htakes'
  have hiff := hroot'.update_again hn' hx' htakes' hput hagain
  refine ⟨s.withRoot root', ?_, rfl, ⟨old, hold, ?_⟩, ?_, ?_⟩
  · rw [hx, Store.update, hupdate]
    rfl
  · rw [← Fields.merge_eq hdistinct hnews, ← hput]
    exact hupdated
  · rw [hx, Store.update, withRoot, hagain]
    rfl
  · rw [hx, Store.update, withRoot, hagain, ← Fields.merge_merge_iff hdistinct hnews, ← hiff]
    exact ⟨fun heq => congrArg Store.root heq, fun heq => by rw [heq]; rfl⟩

end Update

/-- An update is made just if a node with the identifier takes the fields. This node then has the
fields, in their old places or at the end, and nothing else is changed. The same update changes
nothing a second time, unless a key of the fields is not like itself, and so is new each time. -/
theorem update_updates {s : Store} (h : WellFormed s.root) (hproper : s.root.Proper)
    {news : Fields} (hnews : Fields.Distinct news) :
    (∀ id, (s.update id (.object news)).1 = .ok true ↔
      ∃ n ∈ nodes s.root, n.field "id" = id ∧ Takes n news) ∧
    (∀ id, (¬ ∃ n ∈ nodes s.root, n.field "id" = id ∧ Takes n news) →
      s.update id (.object news) = (.ok false, s)) ∧
    ∀ n ∈ nodes s.root, Takes n news → ∃ t, Updates s n news t := by
  refine ⟨fun id => ⟨fun hdone => ?_, ?_⟩, fun id => update_of_not_takes h, fun n hn htakes =>
    updates_of_takes h hnews hproper hn htakes⟩
  · by_contra hno
    rw [update_of_not_takes h hno] at hdone
    cases hdone
  · rintro ⟨n, hn, rfl, htakes⟩
    obtain ⟨t, ht⟩ := updates_of_takes h hnews hproper hn htakes
    rw [ht.done]

/-- A row becomes a column, with a label. -/
def relabelled : Fields := [(.text "type", .text "column"), (.text "label", .text "Shelf")]

theorem takes_relabelled : Takes shelf relabelled where
  children := by simp [relabelled]
  id := by simp [relabelled]
  type := by
    intro v hv
    obtain rfl : v = .text "column" := by simpa [relabelled] using hv
    exact .inr ⟨.column, by decide, by decide, by decide, by decide⟩

theorem update_updates_shelf :
    WellFormed furnished.root ∧ furnished.root.Proper ∧ Fields.Distinct relabelled ∧
      Takes shelf relabelled ∧
      (furnished.update (.text "shelf") (.object relabelled)).1 = .ok true ∧
      (∃ t, Updates furnished shelf relabelled t) ∧
      ∀ f ∈ relabelled, f.1.alike f.1 = true := by
  have hempty : (Value.object []).Proper := Value.plain_empty.proper
  have hproper : furnished.root.Proper := by
    simp [furnished, cupboard, shelf, column, hempty]
  have hdistinct : Fields.Distinct relabelled :=
    (Fields.distinct_texts_iff [("type", .text "column"), ("label", .text "Shelf")]).mpr (by decide)
  obtain ⟨hiff, -, hmade⟩ := update_updates wellFormed_cupboard.1 hproper hdistinct
  exact ⟨wellFormed_cupboard.1, hproper, hdistinct, takes_relabelled,
    (hiff (.text "shelf")).mpr ⟨shelf, shelf_mem_cupboard, rfl, takes_relabelled⟩,
    hmade shelf shelf_mem_cupboard takes_relabelled, by decide⟩

/-- A field with a key that equals nothing. -/
def unnameable : Fields := [(.atom .foreign, .int 1)]

/-- The store of a new session whose page was given that field. -/
def overgrown : Store := ((start .null .null).update (.text "root") (.object unnameable)).2

/-- The same field is put in once more when the update is made again. -/
theorem update_overgrown_ne :
    WellFormed (start .null .null).root ∧ Fields.Distinct unnameable ∧
      ((start .null .null).update (.text "root") (.object unnameable)).1 = .ok true ∧
      (overgrown.update (.text "root") (.object unnameable)).1 = .ok true ∧
      (overgrown.update (.text "root") (.object unnameable)).2 ≠ overgrown := by
  refine ⟨.initialRoot, List.pairwise_singleton .., by decide +kernel, by decide +kernel, ?_⟩
  intro heq
  have hcount := congrArg (fun s => s.root.fields?.map List.length) heq
  exact absurd hcount (by decide +kernel)

end Store

end PageBuilder
