import PageBuilder.Proofs.Store.Insert
import PageBuilder.Proofs.Store.Operations
import PageBuilder.Proofs.Tree.Addressed
import PageBuilder.Proofs.Tree.GuestDraws

/-!
What the insertion of a guest does to a store.

* `Guesting`, `guesting`: all that it can come to, beside the insertion of the value of the guest;
* `exists_insertGuest_eq`: the insertion of any value is that of a guest;
* `insertGuest_inserted_iff`: what is stored is what the value would be stored as just if no node is
  listed twice;
* `insertGuest_takes_in`: a guest is inserted just where its value can be;
* `Call`, `answers`: the operations, with the insertion of guests among them;
* `wellFormed_answers_iff`: the tree stays well-formed just if no guest is taken in that has a node
  listed twice.
-/

namespace PageBuilder.Store

open PageBuilder.Fresh PageBuilder.Guest PageBuilder.Tree

/-! ## One insertion -/

/-- All that the insertion of a guest can come to, beside that of its value. -/
inductive Guesting (s : Store) (source : IdSource) (drawn : Nat) (parentId : Value) (g : Guest) :
    Insertion → Insertion → Prop where
  | alike {i : Insertion} (none : ∀ id, i.result ≠ .ok (some id)) :
      Guesting s source drawn parentId g i i
  | taken {p item stored : Value} {y own id : String} {b : Allotment} (listed : p ∈ nodes s.root)
      (named : p.field "id" = .text y) (container : p.isContainer = true)
      (isText : parentId = .text y)
      (settled : g.Stored source ⟨namesIn s.root, drawn⟩ item stored b)
      (ownId : item.field "id" = .text own) (storedId : stored.field "id" = .text id) :
      Guesting s source drawn parentId g
        ⟨.ok (some own), s.withRoot (appended y item s.root), b.drawn⟩
        ⟨.ok (some id), s.withRoot (appended y stored s.root), b.drawn⟩

theorem exists_id {item : Value} {names : List String}
    (h : (nodes item).map (fun n => n.field "id") = names.map .text) :
    ∃ id, item.field "id" = .text id := by
  rw [nodes_eq, List.map_cons] at h
  obtain ⟨id, others, -, hid, -⟩ := List.map_eq_cons_iff.mp h.symm
  exact ⟨id, hid.symm⟩

section Insertions

variable {s : Store} (h : WellFormed s.root)

include h

theorem guesting (source : IdSource) (drawn : Nat) (parentId : Value) (g : Guest) :
    Guesting s source drawn parentId g (s.insert source drawn parentId g.value)
      (s.insertGuest source drawn parentId g) := by
  by_cases hp : ∃ p ∈ nodes s.root, p.field "id" = parentId ∧ p.isContainer
  · obtain ⟨p, hmem, rfl, hc⟩ := hp
    obtain ⟨y, hy, -⟩ := (h.sound p hmem).named
    rw [hy, Store.insert, h.insert_at hmem hy hc, insertGuest, h.insertSettled_at hmem hy hc]
    rcases g.settle_cases source ⟨namesIn s.root, drawn⟩ with
      ⟨e, b, hvalue, hsettled⟩ | ⟨item, stored, b, hstored⟩
    · rw [hvalue, hsettled]
      refine .alike fun id => ?_
      cases e <;> exact fun heq => by cases heq
    · obtain ⟨-, names, htaken, -⟩ := settle_takenIn g.value _ item b hstored.value
      have hitem := htaken.named
      rw [nodesOf_singleton (List.forall₂_cons.mp htaken.adopted).1.isObject] at hitem
      obtain ⟨own, hown⟩ := exists_id hitem
      obtain ⟨id, hid⟩ := exists_id hstored.namesIn.1
      rw [hstored.value, hstored.settled, insertion, insertion, hown, hid]
      exact .taken hmem hy hc rfl hstored hown hid
  · rw [Store.insert, h.insert_of_refused source drawn hp, insertGuest,
      h.insertSettled_of_refused _ drawn hp]
    exact .alike fun id heq => by cases heq

/-- With patience enough for its draws the insertion of a guest comes to an end. -/
theorem insertGuest_ends {source : IdSource} (drawn : Nat) (parentId : Value) (g : Guest)
    (hsource : source.Supplies ((nodes s.root).length + (held g.value).length)) :
    ∃ least, ∀ patience, least ≤ patience →
      (s.insertGuest (source.patient patience) drawn parentId g).result ≠
        .error .drawsExhausted := by
  obtain ⟨least, hends⟩ := insert_ends h drawn parentId hsource
  refine ⟨least, fun patience hle => ?_⟩
  have hne := hends patience hle
  have hguesting := guesting h (source.patient patience) drawn parentId g
  generalize s.insert _ drawn parentId g.value = i at hne hguesting
  generalize s.insertGuest _ drawn parentId g = j at hguesting ⊢
  cases hguesting with
  | alike => exact hne
  | taken => exact fun heq => by cases heq

/-- If no node is listed twice, a guest is inserted as its value is. -/
theorem insertGuest_of_once (source : IdSource) (drawn : Nat) (parentId : Value) {g : Guest}
    (honce : g.Once) :
    s.insertGuest source drawn parentId g = s.insert source drawn parentId g.value := by
  have hguesting := guesting h source drawn parentId g
  generalize s.insert source drawn parentId g.value = i at hguesting ⊢
  generalize s.insertGuest source drawn parentId g = j at hguesting ⊢
  cases hguesting with
  | alike => rfl
  | taken hmem hy hc _ hstored hown hid =>
    rw [hstored.once honce, hown] at hid
    cases hid
    rw [hstored.once honce]

/-- The insertion of any value is that of a guest. -/
theorem exists_insertGuest_eq (source : IdSource) (drawn : Nat) (parentId v : Value) :
    ∃ g : Guest, g.value = v ∧ g.Once ∧
      s.insertGuest source drawn parentId g = s.insert source drawn parentId v := by
  obtain ⟨g, rfl, honce⟩ := exists_once v
  exact ⟨g, rfl, honce, insertGuest_of_once h source drawn parentId honce⟩

/-- If the identifiers are all different after a guest was taken in, no node of it is listed
twice. -/
theorem once_of_distinct {source : IdSource} {drawn : Nat} {g : Guest} {p item stored : Value}
    {y : String} {b : Allotment} (hmem : p ∈ nodes s.root) (hy : p.field "id" = .text y)
    (hc : p.isContainer = true) (hstored : g.Stored source ⟨namesIn s.root, drawn⟩ item stored b)
    (hdistinct : ((nodes (appended y stored s.root)).map fun n => n.field "id").Nodup) :
    g.Once := by
  rw [(h.ids_appended hmem hy hc hstored.isObject).nodup_iff, hstored.namesIn.1] at hdistinct
  exact hstored.namesIn.2.mp (.of_map _ (List.nodup_append.mp hdistinct).2.1)

/-- After an insertion all identifiers are different. -/
theorem distinct_of_inserted {source : IdSource} {node p item root' : Value} {y id : String}
    (hmem : p ∈ nodes s.root) (hy : p.field "id" = .text y) (hc : p.isContainer = true)
    (hinserted : Inserted source s.root node y id item root') :
    ((nodes root').map fun n => n.field "id").Nodup := by
  obtain ⟨htree, hadopted, -, names, hids, hallotted⟩ := hinserted
  obtain ⟨hnodup, hnew⟩ := hallotted.nodup
  have hroot : (nodes s.root).map (fun n => n.field "id") = (namesIn s.root).map .text :=
    ids_eq_map_text h.sound
  rw [htree, (h.ids_appended hmem hy hc hadopted.isObject).nodup_iff, hids, hroot,
    ← List.map_append]
  have hold := h.distinct
  rw [hroot] at hold
  refine List.Nodup.map (fun s t hst => by cases hst; rfl) ?_
  exact List.nodup_append.mpr ⟨.of_map _ hold, hnodup, fun s hs t ht heq => hnew t ht (heq ▸ hs)⟩

/-- What is stored of a guest that is taken in is what its value would be stored as just if no node
is listed twice. -/
theorem insertGuest_inserted_iff (source : IdSource) (drawn : Nat) (parentId : Value) (g : Guest)
    {id : String} (hid : (s.insertGuest source drawn parentId g).result = .ok (some id)) :
    (∃ y item root', parentId = .text y ∧ Inserted source s.root g.value y id item root' ∧
      (s.insertGuest source drawn parentId g).store = s.withRoot root') ↔ g.Once := by
  constructor
  · rintro ⟨y', item', root', htext', hinserted, hstore⟩
    have hguesting := guesting h source drawn parentId g
    generalize s.insert source drawn parentId g.value = i at hguesting
    generalize s.insertGuest source drawn parentId g = j at hid hstore hguesting
    cases hguesting with
    | alike hnone => exact absurd hid (hnone id)
    | @taken p item stored y own id' b hmem hy hc htext hstored _ _ =>
      rw [htext] at htext'
      cases htext'
      have hroot : appended _ stored s.root = root' := congrArg Store.root hstore
      have hdistinct := distinct_of_inserted h hmem hy hc hinserted
      rw [← hroot] at hdistinct
      exact once_of_distinct h hmem hy hc hstored hdistinct
  · intro honce
    rw [insertGuest_of_once h source drawn parentId honce] at hid ⊢
    have htaken := (insert_takes_in h source drawn parentId g.value).1 (by simp [hid])
    exact htaken.2.1 id hid

/-- The tree stays well-formed just if a guest that is taken in has no node listed twice. -/
theorem insertGuest_wellFormed_iff (source : IdSource) (drawn : Nat) (parentId : Value)
    (g : Guest) : WellFormed (s.insertGuest source drawn parentId g).store.root ↔
      ((∃ id, (s.insertGuest source drawn parentId g).result = .ok (some id)) → g.Once) := by
  have hvalue : WellFormed (s.insert source drawn parentId g.value).store.root :=
    (insert_step (P := fun _ => True) s source drawn trivial).wellFormed h
  constructor
  · rintro hsound ⟨id, hid⟩
    have hguesting := guesting h source drawn parentId g
    generalize s.insert source drawn parentId g.value = i at hguesting
    generalize s.insertGuest source drawn parentId g = j at hid hsound hguesting
    cases hguesting with
    | alike hnone => exact absurd hid (hnone id)
    | taken hmem hy hc _ hstored _ _ =>
      exact once_of_distinct h hmem hy hc hstored hsound.distinct
  · intro honce
    have hguesting := guesting h source drawn parentId g
    generalize hi : s.insert source drawn parentId g.value = i at hvalue hguesting
    generalize hj : s.insertGuest source drawn parentId g = j at honce hguesting ⊢
    cases hguesting with
    | alike _ => exact hvalue
    | taken _ _ _ _ hstored _ _ =>
      rw [hstored.once (honce ⟨_, rfl⟩)]
      exact hvalue

end Insertions

/-- The insertion of a guest is made just where that of its value is possible, and what is stored
stands last among the children of the container. It is stored as its value would be just if no node
is listed twice. Otherwise nothing is changed. As long as other identifiers are drawn than are in
use, it comes to an end. -/
theorem insertGuest_takes_in {s : Store} (h : WellFormed s.root) (source : IdSource) (drawn : Nat)
    (parentId : Value) (g : Guest) :
    ((s.insertGuest source drawn parentId g).result ≠ .error .drawsExhausted →
      ((∃ id, (s.insertGuest source drawn parentId g).result = .ok (some id)) ↔
        Accepts s.root parentId g.value) ∧
      (∀ id, (s.insertGuest source drawn parentId g).result = .ok (some id) →
        (∃ y stored, parentId = .text y ∧ stored.field "id" = .text id ∧
          (s.insertGuest source drawn parentId g).store =
            s.withRoot (appended y stored s.root)) ∧
        ((∃ y item root', parentId = .text y ∧ Inserted source s.root g.value y id item root' ∧
          (s.insertGuest source drawn parentId g).store = s.withRoot root') ↔ g.Once)) ∧
      (¬ Accepts s.root parentId g.value →
        (s.insertGuest source drawn parentId g).result = .ok none ∧
          (s.insertGuest source drawn parentId g).store = s)) ∧
    (source.Supplies ((nodes s.root).length + (held g.value).length) →
      ∃ least, ∀ patience, least ≤ patience →
        (s.insertGuest (source.patient patience) drawn parentId g).result ≠
          .error .drawsExhausted) := by
  refine ⟨fun hne => ?_, insertGuest_ends h drawn parentId g⟩
  have hinserted := @insertGuest_inserted_iff s h source drawn parentId g
  have hvalue := (insert_takes_in h source drawn parentId g.value).1
  have hguesting := guesting h source drawn parentId g
  generalize s.insert source drawn parentId g.value = i at hvalue hguesting
  generalize s.insertGuest source drawn parentId g = j at hne hinserted hguesting ⊢
  cases hguesting with
  | alike hnone =>
    obtain ⟨haccepted, -, hrefused⟩ := hvalue hne
    exact ⟨haccepted, fun id hid => absurd hid (hnone id), hrefused⟩
  | @taken p item stored y own id b hmem hy hc htext hstored hown hid =>
    obtain ⟨haccepted, -, -⟩ := hvalue fun heq => by cases heq
    have haccepts := haccepted.mp ⟨own, rfl⟩
    refine ⟨⟨fun _ => haccepts, fun _ => ⟨id, rfl⟩⟩, fun id' heq => ⟨?_, hinserted heq⟩,
      fun hnot => absurd haccepts hnot⟩
    cases heq
    exact ⟨y, stored, htext, hid, rfl⟩

/-- A source of thirteen different draws that come round again. -/
def wheel : IdSource :=
  ⟨fun n => String.ofList (List.replicate (n % 13) 'a' ++ List.replicate (32 - n % 13) '0'), 0⟩

theorem count_idText_wheel (kind : ComponentKind) (n : Nat) :
    (idText wheel kind n).toList.count 'a' = (kind.name ++ "_").toList.count 'a' + n % 13 := by
  have hdraw : ∀ r < 13, ((List.replicate r 'a' ++ List.replicate (32 - r) '0').take 12).count 'a' =
      r := by decide
  have hlt : n % 13 < 13 := Nat.mod_lt n (by decide)
  rw [idText, String.toList_append, List.count_append, String.toList_ofList, wheel,
    String.toList_ofList, nodeIdLength, hdraw _ hlt]

theorem wheel_supplies {count : Nat} (h : count ≤ 12) : wheel.Supplies count := by
  intro kind used number hused
  by_contra hnone
  have hall : ∀ n, number < n → idText wheel kind n ∈ used := by
    intro n hn
    by_contra hnot
    exact hnone ⟨n, hn, hnot⟩
  -- the next round begins behind `number`
  have hround : ∀ r, number < 13 * (number / 13 + 1) + r := by
    intro r
    have := Nat.div_add_mod number 13
    have := Nat.mod_lt number (show 13 > 0 by decide)
    omega
  let round := (List.range 13).map fun r => idText wheel kind (13 * (number / 13 + 1) + r)
  have hdistinct : round.Nodup := by
    refine List.Nodup.map_on (fun r hr t ht heq => ?_) List.nodup_range
    have hcount := congrArg (fun s => s.toList.count 'a') heq
    simp only [count_idText_wheel, Nat.mul_add_mod] at hcount
    rw [List.mem_range] at hr ht
    omega
  have hsub : round ⊆ used := by
    intro id hid
    obtain ⟨r, -, rfl⟩ := List.mem_map.mp hid
    exact hall _ (hround r)
  have hlength := (List.subperm_of_subset hdistinct hsub).length_le
  rw [List.length_map, List.length_range] at hlength
  omega

/-- A row whose identifiers are in use, or missing, or come twice. -/
def pile : Guest where
  memory n := match n with
    | 0 => ⟨[(.text "id", .text "door"), (.text "type", .text "row"),
        (.text "children", .list [])], [.object 1, .object 2, .object 3]⟩
    | 1 => ⟨[(.text "id", .text "tile"), (.text "type", .text "text"), (.text "props", .null),
        (.text "children", .list [])], [.other (.int 1) rfl]⟩
    | 2 => ⟨[(.text "id", .text "tile"), (.text "type", .text "column"),
        (.text "children", .null)], []⟩
    | _ => ⟨[(.text "type", .text "image"), (.text "props", .object [])], []⟩
  top := .object 0
  room := 2
  finite := by decide +kernel

/-- The pile is stored under identifiers of which two are drawn in place of others and one for none,
and only the text keeps its own. -/
theorem insertGuest_takes_in_pile :
    WellFormed furnished.root ∧ Accepts furnished.root (.text "column") pile.value ∧ pile.Once ∧
      (∃ y item root', .text "column" = Value.text y ∧
        Inserted wheel furnished.root pile.value y "row_a00000000000" item root' ∧
        (furnished.insertGuest wheel 0 (.text "column") pile).store = furnished.withRoot root') ∧
      wheel.Supplies ((nodes furnished.root).length + (held pile.value).length) ∧
      ∃ least, ∀ patience, least ≤ patience →
        (furnished.insertGuest (wheel.patient patience) 0 (.text "column") pile).result ≠
          .error .drawsExhausted := by
  have hresult : (furnished.insertGuest wheel 0 (.text "column") pile).result =
      .ok (some "row_a00000000000") := by decide +kernel
  have hsupplies : wheel.Supplies ((nodes furnished.root).length + (held pile.value).length) :=
    wheel_supplies (by decide +kernel)
  have hsound : WellFormed furnished.root := wellFormed_cupboard.1
  have honce : pile.Once := by decide +kernel
  obtain ⟨htaken, hends⟩ := insertGuest_takes_in hsound wheel 0 (.text "column") pile
  obtain ⟨haccepted, hstored, -⟩ := htaken (by simp [hresult])
  exact ⟨hsound, haccepted.mp ⟨_, hresult⟩, honce, (hstored _ hresult).2.mpr honce, hsupplies,
    hends hsupplies⟩

/-- The text with the identifier of its own, which no other node has, is stored under another one,
and twice. -/
theorem insertGuest_twice_not_inserted :
    let s := start .null .null
    let i := s.insertGuest tickets 0 (.text "root") twice
    WellFormed s.root ∧ Accepts s.root (.text "root") twice.value ∧
      i.result = .ok (some "row_000000000001") ∧
      namesIn i.store.root =
        ["root", "row_000000000001", "text_000000000002", "text_000000000002"] ∧
      ¬ ∃ y item root', .text "root" = Value.text y ∧
        Inserted tickets s.root twice.value y "row_000000000001" item root' ∧
        i.store = s.withRoot root' := by
  intro s i
  have hsound : WellFormed s.root := .initialRoot
  have hvalue : (s.insert tickets 0 (.text "root") twice.value).result =
      .ok (some "row_000000000001") := by decide +kernel
  have haccepted := ((insert_takes_in hsound tickets 0 (.text "root") twice.value).1
    (by simp [hvalue])).1
  have hresult : i.result = .ok (some "row_000000000001") := by decide +kernel
  refine ⟨hsound, haccepted.mp ⟨_, hvalue⟩, hresult, by decide +kernel, ?_⟩
  rw [insertGuest_inserted_iff hsound tickets 0 (.text "root") twice hresult]
  decide +kernel

/-! ## Sequences -/

/-- An operation with values in which nothing is listed twice, or the insertion of a guest. -/
inductive Call where
  | operation (op : Operation)
  | insertGuest (source : IdSource) (drawn : Nat) (parentId : Value) (g : Guest)

def Call.apply (s : Store) : Call → Verdict × Store
  | operation op => op.apply s
  | insertGuest source drawn parentId g =>
    let i := s.insertGuest source drawn parentId g
    (.ofInserted i.result, i.store)

/-- A guest has no node listed twice. -/
def Call.Once : Call → Prop
  | operation _ => True
  | insertGuest _ _ _ g => g.Once

instance : (call : Call) → Decidable call.Once
  | .operation _ => .isTrue trivial
  | .insertGuest _ _ _ g => inferInstanceAs (Decidable g.Once)

/-- What each of some calls says, and the store after it. -/
def answers (s : Store) : List Call → List (Verdict × Store)
  | [] => []
  | call :: calls => call.apply s :: (call.apply s).2.answers calls

theorem done_iff {result : Except Fault (Option String)} :
    Verdict.ofInserted result = .done ↔ ∃ id, result = .ok (some id) := by
  rcases result with f | _ | id <;> simp [Verdict.ofInserted]

/-- A call keeps the tree well-formed, unless it takes a guest in that has a node listed twice. -/
theorem Call.apply_wellFormed_iff {s : Store} (h : WellFormed s.root) (call : Call) :
    WellFormed (call.apply s).2.root ↔ ((call.apply s).1 = .done → call.Once) := by
  cases call with
  | operation op =>
    exact ⟨fun _ _ => trivial, fun _ => (op.apply_step s).wellFormed h⟩
  | insertGuest source drawn parentId g =>
    rw [apply, done_iff]
    exact insertGuest_wellFormed_iff h source drawn parentId g

/-- Whatever is called in whatever order, the tree is well-formed after every call, just if none of
them takes a guest in that has a node listed twice. -/
theorem wellFormed_answers_iff {s : Store} (h : WellFormed s.root) (calls : List Call) :
    (∀ o ∈ s.answers calls, WellFormed o.2.root) ↔
      ∀ c ∈ calls.zip (s.answers calls), c.2.1 = .done → c.1.Once := by
  induction calls generalizing s with
  | nil => exact iff_of_true (List.forall_mem_nil _) (List.forall_mem_nil _)
  | cons call calls ih =>
    rw [answers, List.forall_mem_cons, List.zip_cons_cons, List.forall_mem_cons,
      call.apply_wellFormed_iff h]
    exact and_congr_right fun honce => ih ((call.apply_wellFormed_iff h).mpr honce)

/-- A guest is taken in with a copy of itself beside it, one that has a node twice is refused for
its container, and other calls fail. -/
theorem wellFormed_answers_session :
    WellFormed (start .null .null).root ∧
      ∀ o ∈ (start .null .null).answers [
        .insertGuest tickets 0 (.text "root") pile,
        .insertGuest tickets 9 (.text "root") pile,
        .insertGuest tickets 20 (.text "tile") twice,
        .operation (.edit (.move (.text "door") (.text "root") (.list []))),
        .operation (.edit (.update (.text "root") (.ofFields [("children", .int 5)]))),
        .operation (.edit (.reorder (.text "door") (.text "left"))),
        .operation (.load (.ofFields [("root", .int 5)])),
        .operation (.runActions ⟨.silent, .null⟩ (.int 1) (.int 2) [])],
        WellFormed o.2.root :=
  ⟨.initialRoot, (wellFormed_answers_iff .initialRoot _).mpr (by decide +kernel)⟩

/-- After the row was taken in, two nodes have one identifier. -/
theorem not_wellFormed_answers_twice :
    WellFormed (start .null .null).root ∧
      ¬ ∀ o ∈ (start .null .null).answers [.insertGuest tickets 0 (.text "root") twice],
        WellFormed o.2.root := by
  refine ⟨.initialRoot, fun hall => ?_⟩
  have hsound := hall _ (List.mem_cons_self ..)
  rw [Call.apply_wellFormed_iff .initialRoot] at hsound
  have honce : twice.Once := hsound (by decide +kernel)
  exact absurd honce (by decide +kernel)

end PageBuilder.Store
