import PageBuilder.Proofs.Store.CutPaste

/-!
What an insertion does to a store.

* `Inserting`, `inserting`: all that an insertion can come to;
* `insert_ends`: with patience enough for its draws it comes to an end;
* `insert_takes_in`: it is made just where it is possible, and changes one child list.

What is inserted is a tree, in which no node is listed twice; of others, see `Guesting`.
-/

namespace PageBuilder.Store

open PageBuilder.Tree PageBuilder.Fresh

/-- All that an insertion into a store can come to. -/
inductive Inserting (s : Store) (source : IdSource) (parentId node : Value) : Insertion → Prop where
  | taken {y id : String} {item root' : Value} (accepts : Accepts s.root parentId node)
      (isText : parentId = .text y) (inserted : Inserted source s.root node y id item root')
      (drawn : Nat) : Inserting s source parentId node ⟨.ok (some id), s.withRoot root', drawn⟩
  | refused (refuses : ¬ Accepts s.root parentId node) (drawn : Nat) :
      Inserting s source parentId node ⟨.ok none, s, drawn⟩
  | exhausted (drawn : Nat) : Inserting s source parentId node ⟨.error .drawsExhausted, s, drawn⟩

section Insertions

variable {s : Store} (h : WellFormed s.root)

include h

theorem inserting (source : IdSource) (drawn : Nat) (parentId node : Value) :
    Inserting s source parentId node (s.insert source drawn parentId node) := by
  by_cases hp : ∃ p ∈ nodes s.root, p.field "id" = parentId ∧ p.isContainer
  · obtain ⟨p, hmem, rfl, hc⟩ := id hp
    obtain ⟨y, hy, -⟩ := (h.sound p hmem).named
    rw [hy] at hp ⊢
    rw [Store.insert, h.insert_at hmem hy hc]
    rcases hsettle : settle source node ⟨namesIn s.root, drawn⟩ with ⟨⟨⟨⟩⟩ | item, a⟩
    · refine .refused (fun haccepts => ?_) a.drawn
      exact settle_unfit node _ a hsettle haccepts.2
    · exact .exhausted a.drawn
    · obtain ⟨hnode, names, htaken, -⟩ := settle_takenIn node _ item a hsettle
      have hadopted := (List.forall₂_cons.mp htaken.adopted).1
      have hnamed := htaken.named
      have hallotted := htaken.allotted
      rw [nodesOf_singleton hadopted.isObject] at hnamed
      rw [List.flatMap_singleton] at hallotted
      -- the item is the first of its nodes
      have hfirst := hnamed
      rw [nodes_eq, List.map_cons] at hfirst
      obtain ⟨id, others, rfl, hid, -⟩ := List.map_eq_cons_iff.mp hfirst.symm
      rw [insertion, ← hid]
      exact .taken ⟨hp, hnode⟩ rfl ⟨rfl, hadopted, hid.symm, id :: others, hnamed, hallotted⟩ _
  · rw [Store.insert, h.insert_of_refused source drawn hp]
    exact .refused (fun haccepts => hp haccepts.1) drawn

/-- With patience enough for its draws an insertion comes to an end. -/
theorem insert_ends {source : IdSource} (drawn : Nat) (parentId : Value) {node : Value}
    (hsource : source.Supplies ((nodes s.root).length + (held node).length)) :
    ∃ least, ∀ patience, least ≤ patience →
      (s.insert (source.patient patience) drawn parentId node).result ≠
        .error .drawsExhausted := by
  by_cases hp : ∃ p ∈ nodes s.root, p.field "id" = parentId ∧ p.isContainer
  · obtain ⟨p, hmem, rfl, hc⟩ := id hp
    obtain ⟨y, hy, -⟩ := (h.sound p hmem).named
    have hlength := length_namesIn_le s.root
    obtain ⟨outcome, least, hne, hends⟩ :=
      settle_ends hsource node ⟨namesIn s.root, drawn⟩ (by
        show (namesIn s.root).length + _ ≤ _
        omega)
    refine ⟨least, fun patience hle => ?_⟩
    have hsettle : settle (source.patient patience) node ⟨namesIn s.root, drawn⟩ = outcome :=
      hends patience hle
    rw [hy, Store.insert, h.insert_at hmem hy hc, hsettle]
    rcases outcome with ⟨⟨⟨⟩⟩ | item, a⟩
    · simp [insertion, inserted]
    · exact absurd rfl hne
    · simp [insertion, inserted]
  · refine ⟨0, fun patience _ => ?_⟩
    rw [Store.insert, h.insert_of_refused _ drawn hp]
    simp [inserted]

end Insertions

/-- An insertion is made just where it is possible. Then what is stored of the value stands last
among the children of the container, and nothing else is changed; otherwise nothing is. As long as
other identifiers are drawn than are in use, it comes to an end. -/
theorem insert_takes_in {s : Store} (h : WellFormed s.root) (source : IdSource) (drawn : Nat)
    (parentId node : Value) :
    ((s.insert source drawn parentId node).result ≠ .error .drawsExhausted →
      ((∃ id, (s.insert source drawn parentId node).result = .ok (some id)) ↔
        Accepts s.root parentId node) ∧
      (∀ id, (s.insert source drawn parentId node).result = .ok (some id) →
        ∃ y item root', parentId = .text y ∧ Inserted source s.root node y id item root' ∧
          (s.insert source drawn parentId node).store = s.withRoot root') ∧
      (¬ Accepts s.root parentId node → (s.insert source drawn parentId node).result = .ok none ∧
        (s.insert source drawn parentId node).store = s)) ∧
    (source.Supplies ((nodes s.root).length + (held node).length) →
      ∃ least, ∀ patience, least ≤ patience →
        (s.insert (source.patient patience) drawn parentId node).result ≠
          .error .drawsExhausted) := by
  refine ⟨fun hne => ?_, insert_ends h drawn parentId⟩
  have hinserting := inserting h source drawn parentId node
  generalize s.insert source drawn parentId node = outcome at hinserting hne ⊢
  cases hinserting with
  | @taken y id item root' haccepts htext hinserted =>
    refine ⟨⟨fun _ => haccepts, fun _ => ⟨id, rfl⟩⟩, fun id' hid => ?_, fun hnot => ?_⟩
    · cases hid
      exact ⟨y, item, root', htext, hinserted, rfl⟩
    · exact absurd haccepts hnot
  | refused hrefuses =>
    refine ⟨⟨fun ⟨id, hid⟩ => ?_, fun haccepts => absurd haccepts hrefuses⟩, fun id hid => ?_,
      fun _ => ⟨rfl, rfl⟩⟩
    · cases hid
    · cases hid
  | exhausted => exact absurd rfl hne

end PageBuilder.Store
