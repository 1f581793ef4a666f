import PageBuilder.Document.Transfer
import PageBuilder.Proofs.Json.Plain
import PageBuilder.Proofs.Store.Workable
import PageBuilder.Service.Events

/-!
What calls make of values that they are given: the event lists and actions of a node, new
components, and the documents that are read.
-/

namespace PageBuilder

open Value (Storable Workable)

/-! ## Event lists -/

namespace Events

theorem ofNode_holdEvents {node : Value} {events : Fields} (h : ofNode node = .ok events)
    (hnode : node.Workable) : events.HoldEvents := by
  unfold ofNode at h
  simp only at h
  split at h
  · rename_i htruthy
    rw [Value.field_eq] at h htruthy
    cases hget : node.get? "events" with
    | none =>
      rw [hget] at htruthy
      cases htruthy
    | some w =>
      rw [hget] at h
      exact hnode.events w hget events h
  · cases h
    exact .empty

theorem actions_storable {events : Fields} {event : String} {items : List Value}
    (h : actions events event = .ok items) (hevents : events.HoldEvents) :
    ∀ item ∈ items, item.Storable := by
  have hfield : (Fields.field events event).Storable := by
    unfold Fields.field
    cases hget : Fields.get? events event with
    | none => exact .atom rfl
    | some v => exact (hevents.2 _ (Fields.mem_of_get? hget)).2
  unfold actions at h
  simp only at h
  split at h
  · exact Store.itemsOf_storable h hfield
  · cases h
    exact List.forall_mem_nil _

theorem defaultConfig_storable (kind : ActionKind) :
    (Value.object kind.defaultConfig).Storable := by
  cases kind with
  | webhook =>
    show (Value.ofFields [("url", .text _), ("method", .text _)]).Storable
    simp [Atom.offence?]
  | setState =>
    show (Value.ofFields [("key", .text _), ("value", .text _)]).Storable
    simp [Atom.offence?]
  | consoleLog =>
    show (Value.ofFields [("message", .text _)]).Storable
    simp [Atom.offence?]
  | alert =>
    show (Value.ofFields [("message", .text _)]).Storable
    simp [Atom.offence?]

theorem newAction_storable (source : IdSource) (number : Nat) (kind : ActionKind) :
    (newAction source number kind).Storable := by
  simp [newAction, defaultConfig_storable kind, Atom.offence?]

theorem reconfigured_storable {config action : Fields} {v : Value}
    (h : reconfigured config action = .ok v) (hconfig : (Value.object config).Storable)
    (haction : (Value.object action).Storable) : v.Storable := by
  unfold reconfigured at h
  simp only at h
  split at h
  · cases h
  · rename_i old hold
    cases h
    have hstorable : (Value.object old).Storable := by
      split at hold
      · rw [← Value.fields?_eq_some hold]
        exact Storable.closed.field haction "config"
      · cases hold
        exact Value.storable_empty
    exact Storable.closed.set haction (Storable.closed.merge hstorable hconfig) "config"

/-- Each action is kept, or its configuration is changed. -/
theorem reconfigure_cons {actionId : String} {config : Fields} {v : Value} {rest made : List Value}
    (h : reconfigure actionId config (v :: rest) = .ok made) :
    ∃ first others, made = first :: others ∧ reconfigure actionId config rest = .ok others ∧
      (first = v ∨ ∃ fields, v = .object fields ∧ reconfigured config fields = .ok first) := by
  unfold reconfigure at h
  simp only at h
  split at h
  · rename_i hv
    unfold isAction at hv
    rw [Bool.and_eq_true] at hv
    obtain ⟨fields, rfl⟩ := (Value.isObject_iff v).mp hv.1
    obtain ⟨first, hfirst, h⟩ := bind_eq_ok_iff.mp h
    obtain ⟨others, hothers, h⟩ := bind_eq_ok_iff.mp h
    cases h
    exact ⟨first, others, rfl, hothers, .inr ⟨fields, rfl, hfirst⟩⟩
  · obtain ⟨first, hfirst, h⟩ := bind_eq_ok_iff.mp h
    obtain ⟨others, hothers, h⟩ := bind_eq_ok_iff.mp h
    cases hfirst
    cases h
    exact ⟨v, others, rfl, hothers, .inl rfl⟩

theorem reconfigure_storable {actionId : String} {config : Fields} {items made : List Value}
    (h : reconfigure actionId config items = .ok made) (hconfig : (Value.object config).Storable)
    (hitems : ∀ item ∈ items, item.Storable) : ∀ item ∈ made, item.Storable := by
  induction items generalizing made with
  | nil =>
    cases h
    exact hitems
  | cons v rest ih =>
    rw [List.forall_mem_cons] at hitems
    obtain ⟨first, others, rfl, hothers, hfirst⟩ := reconfigure_cons h
    rw [List.forall_mem_cons]
    refine ⟨?_, ih hothers hitems.2⟩
    rcases hfirst with rfl | ⟨fields, rfl, hfirst⟩
    · exact hitems.1
    · exact reconfigured_storable hfirst hconfig hitems.1

/-- Event lists are put into a node as they are. -/
theorem workable_ofEvents {events : Fields} (h : events.HoldEvents) :
    (Value.ofFields [("events", .object events)]).Workable := by
  refine ⟨by simp [h.plain], fun w hw => ?_, fun c hc => ?_⟩
  · obtain rfl : Value.object events = w := Option.some.inj hw
    intro fields hfields
    cases hfields
    exact h
  · cases hc

end Events

/-! ## Components and documents -/

theorem Fresh.component_storable (kind : ComponentKind) (id : String) :
    (component kind id).Storable := by
  have hstyle : (Value.object (if kind = .row then
      [(.text "display", .text "flex"), (.text "gap", .text "10px")] else [])).Storable := by
    split
    · show (Value.ofFields [("display", .text "flex"), ("gap", .text "10px")]).Storable
      simp [Atom.offence?]
    · exact Value.storable_empty
  unfold component
  simp only
  generalize (if kind = .row then _ else _ : Fields) = style at hstyle ⊢
  have hleaf : (Value.ofFields [("id", .text id), ("type", .text kind.name),
      ("label", .text kind.name), ("props", .object []), ("style", .object style)]).Storable := by
    simp [hstyle, Atom.offence?]
  split
  · exact Storable.closed.set hleaf (v := .list []) (by simp) "children"
  · exact hleaf

theorem Fresh.componentOf_storable {source : IdSource} {drawn drawn' : Nat} {kind node : Value}
    (h : componentOf source drawn kind = (.ok node, drawn')) : node.Storable := by
  unfold componentOf at h
  split at h
  · cases h
  · cases h
    exact component_storable ..

theorem Document.ofSource_plain {source document : Value} (h : ofSource source = .ok document)
    (hsource : source.Plain) : document.Plain := by
  unfold ofSource at h
  split at h
  · exact Json.valueOfText_plain h
  · split at h
    · cases h
    · exact Json.valueOfText_plain h
  · cases h
    exact hsource

end PageBuilder
