import PageBuilder.Proofs.Document.Check

/-!
Where the warnings of a check come from.

* `Plan.code_mem_codes`: the codes of what is reported of a list of actions;
* `Warned`: a warning about one node;
* `founded_tree`: every warning of a tree is one about a node of it.
-/

namespace PageBuilder

/-! ## Plans -/

namespace Plan

/-- The codes of what is reported of a list of actions. -/
def codes : List IssueCode :=
  [.actionInvalid, .actionTypeUnknown, .actionConfigInvalid, .actionsInvalid, .actionIdDuplicate]

/-- All that is reported of a list of actions. -/
def issues (p : Plan) : List Issue := p.errors ++ p.warnings

theorem forall_issues_append {P : Issue → Prop} {p q : Plan} (hp : ∀ i ∈ p.issues, P i)
    (hq : ∀ i ∈ q.issues, P i) : ∀ i ∈ (p ++ q).issues, P i := by
  unfold issues at *
  rw [List.forall_mem_append] at *
  exact ⟨List.forall_mem_append.mpr ⟨hp.1, hq.1⟩, List.forall_mem_append.mpr ⟨hp.2, hq.2⟩⟩

theorem cause_code_mem (c : Refusal.Cause) : c.code ∈ codes := by
  cases c <;> simp [Refusal.Cause.code, codes]

theorem ofEntries_codes (entries : List Value) (index : Nat) (seen : List String) :
    ∀ i ∈ (ofEntries index seen entries).issues, i.code ∈ codes := by
  induction entries generalizing index seen with
  | nil => exact fun i hi => by cases hi
  | cons raw rest ih =>
    unfold ofEntries
    split
    · refine forall_issues_append (fun i hi => ?_) (ih _ _)
      rw [List.mem_singleton.mp hi]
      exact cause_code_mem _
    · refine forall_issues_append (fun i hi => ?_) (ih _ _)
      unfold ofAction issues at hi
      simp only [List.nil_append] at hi
      split at hi
      · rw [List.mem_singleton.mp hi]
        simp [repeated, codes]
      · cases hi

theorem code_mem_codes (v : Value) : ∀ i ∈ (ofValue v).issues, i.code ∈ codes := by
  unfold ofValue
  split
  · exact fun i hi => by cases hi
  · exact ofEntries_codes _ 0 []
  · intro i hi
    rw [List.mem_singleton.mp hi]
    decide

end Plan

namespace Check

/-- A warning about a node: something in it is filled in, or an event of it is reported of. -/
inductive Warned (n : Value) : Issue → Prop where
  | props (message path : String) (missing : n.get? "props" = none) :
      Warned n ⟨.nodePropsMissing, message, some path, .null⟩
  | children (message path : String) (container : n.isContainer = true)
      (missing : (n.field "children").isNull = true) :
      Warned n ⟨.nodeChildrenMissing, message, some path, .null⟩
  | event (path : String) (actions : Value) {i : Issue}
      (reported : i ∈ (Plan.ofValue actions).issues) : Warned n (raised path i)

/-- Findings whose warnings are about nodes of a tree. -/
def Founded (v : Value) (f : Findings) : Prop :=
  ∀ i ∈ f.warnings, ∃ n ∈ Tree.nodes v, Warned n i

theorem Founded.append {v : Value} {f g : Findings} (hf : Founded v f) (hg : Founded v g) :
    Founded v (f ++ g) :=
  List.forall_mem_append.mpr ⟨hf, hg⟩

theorem founded_of_no_warnings {v : Value} {f : Findings} (h : f.warnings = []) :
    Founded v f := by
  intro i hi
  rw [h] at hi
  cases hi

theorem Founded.of_child {v c : Value} {f : Findings} (hc : c ∈ v.children)
    (ho : c.isObject = true) (h : Founded c f) : Founded v f := by
  intro i hi
  obtain ⟨n, hn, hwarned⟩ := h i hi
  exact ⟨n, Tree.mem_nodes_of_child hc ho hn, hwarned⟩

theorem founded_warning {v : Value} {code : IssueCode} {message path : String}
    (h : Warned v ⟨code, message, some path, .null⟩) : Founded v (.warning code message path) := by
  intro i hi
  rw [List.mem_singleton.mp hi]
  exact ⟨v, Tree.self_mem_nodes v, h⟩

/-! ## Single checks -/

theorem founded_id (v : Value) (path : String) (seen : Seen) (w : Value) :
    Founded v (Check.id path seen w).1 := by
  unfold Check.id
  split
  · exact founded_of_no_warnings rfl
  · split <;> exact founded_of_no_warnings rfl

theorem founded_eventFields (v : Value) (path : String) (fields : Fields) :
    Founded v (eventFields path fields) := by
  induction fields with
  | nil => exact founded_of_no_warnings rfl
  | cons field rest ih =>
    obtain ⟨k, actions⟩ := field
    refine Founded.append ?_ ih
    intro i hi
    obtain ⟨j, hj, rfl⟩ := List.mem_map.mp hi
    exact ⟨v, Tree.self_mem_nodes v, .event _ actions hj⟩

theorem founded_contents (path : String) (isRoot : Bool) (kind : ComponentKind)
    (fields : Fields) : Founded (.object fields) (contents path isRoot kind fields) := by
  refine .append (.append (.append (.append ?_ ?_) ?_) ?_) ?_
  · unfold place
    split
    · exact founded_of_no_warnings rfl
    · split <;> exact founded_of_no_warnings rfl
  · unfold props
    split
    · rename_i hnone
      exact founded_warning (.props _ _ hnone)
    · split <;> exact founded_of_no_warnings rfl
  · unfold style
    split
    · exact founded_of_no_warnings rfl
    · split <;> exact founded_of_no_warnings rfl
  · unfold label
    split <;> exact founded_of_no_warnings rfl
  · unfold events
    split
    · exact founded_of_no_warnings rfl
    · exact founded_eventFields _ _ _
    · exact founded_of_no_warnings rfl

theorem founded_childList (path : String) {kind : ComponentKind} {fields : Fields}
    (hkind : (Value.object fields).kind? = some kind) :
    Founded (.object fields) (childList path kind fields) := by
  unfold childList
  simp only
  split
  · rename_i hc
    split
    · rename_i hnull
      refine founded_warning (.children _ _ ?_ ?_)
      · rw [Tree.isContainer_eq hkind, hc]
      · rw [Value.field, hnull]
        rfl
    · exact founded_of_no_warnings rfl
    · exact founded_of_no_warnings rfl
  · split <;> exact founded_of_no_warnings rfl

/-! ## Trees -/

theorem node_of_not_isObject {path : String} {isRoot : Bool} {seen : Seen} {v : Value}
    (h : v.isObject = false) : (node path isRoot seen v).1.warnings = [] := by
  unfold node
  cases v with
  | object fields => cases h
  | _ => rfl

theorem founded_nodes {v : Value} {vs : List Value} (hvs : ∀ c ∈ vs, c ∈ v.children)
    (ih : ∀ c ∈ vs, ∀ path isRoot seen, Founded c (node path isRoot seen c).1) :
    ∀ path index seen, Founded v (nodes path index seen vs).1 := by
  induction vs with
  | nil =>
    intro path index seen
    rw [nodes]
    exact founded_of_no_warnings rfl
  | cons c rest ihRest =>
    intro path index seen
    rw [nodes]
    refine .append ?_ (ihRest (fun w hw => hvs w (List.mem_cons_of_mem _ hw))
      (fun w hw => ih w (List.mem_cons_of_mem _ hw)) _ _ _)
    cases ho : c.isObject with
    | true => exact (ih c (List.mem_cons_self ..) _ _ _).of_child (hvs c (List.mem_cons_self ..)) ho
    | false => exact founded_of_no_warnings (node_of_not_isObject ho)

theorem founded_node (v : Value) : ∀ path isRoot seen,
    Founded v (node path isRoot seen v).1 := by
  induction v using Value.children_induction with
  | step v ih =>
    intro path isRoot seen
    unfold node
    split
    · exact founded_of_no_warnings rfl
    · rename_i fields hfields
      obtain rfl := Value.fields?_eq_some hfields
      simp only
      split
      · exact .append (founded_id _ _ _ _) (founded_of_no_warnings rfl)
      · rename_i kind hkind
        have hself := ((founded_id (.object fields) path seen (Fields.field fields "id")).append
          (founded_contents path isRoot kind fields)).append (founded_childList path hkind)
        split
        · exact .append hself (founded_nodes (fun c hc => hc) ih _ _ _)
        · exact hself

/-- Every warning of a tree is one about a node of it. -/
theorem founded_tree (root : Value) : Founded root (tree root) := by
  refine .append ?_ (founded_node root _ _ _)
  unfold values
  split <;> exact founded_of_no_warnings rfl

/-- Warnings of a tree give no details. -/
theorem bare_tree (root : Value) : ∀ i ∈ (tree root).warnings, i.detail = .null := by
  intro i hi
  obtain ⟨n, -, hwarned⟩ := founded_tree root i hi
  cases hwarned <;> rfl

/-- A tree in which every node has properties and every container a child list is not warned of for
what is missing. -/
theorem nothing_missing {root : Value}
    (hprops : ∀ n ∈ Tree.nodes root, (n.get? "props").isSome)
    (hlists : ∀ n ∈ Tree.nodes root, n.isContainer = true → n.childList?.isSome) :
    ∀ i ∈ (tree root).warnings, i.code ≠ .nodePropsMissing ∧ i.code ≠ .nodeChildrenMissing := by
  intro i hi
  obtain ⟨n, hn, hwarned⟩ := founded_tree root i hi
  cases hwarned with
  | props _ _ hmissing =>
    have := hprops n hn
    rw [hmissing] at this
    cases this
  | children _ _ hc hmissing =>
    obtain ⟨items, hitems⟩ := Option.isSome_iff_exists.mp (hlists n hn hc)
    rw [Value.childList?_eq_some_iff] at hitems
    rw [Value.field_eq, hitems] at hmissing
    cases hmissing
  | @event path actions j hreported =>
    have hcode : (raised path j).code ∈ Plan.codes := Plan.code_mem_codes actions j hreported
    constructor <;>
    · intro h
      rw [h] at hcode
      exact absurd hcode (by decide)

end Check

end PageBuilder
