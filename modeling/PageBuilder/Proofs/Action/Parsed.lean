import PageBuilder.Action.Parse
import PageBuilder.Proofs.Results
import PageBuilder.Proofs.Value.Fields

/-!
What is known of an action once it was parsed.

* `Action.exists_parseKind`, `Action.parseWebhook_eq_ok`: the parts that it was made of;
* `Action.Sound`: an action that has all that its kind asks for;
* `Action.parse_sound`: no other is ever parsed.
-/

namespace PageBuilder.Action

/-! ## Parts -/

theorem name?_eq_some_iff (v : Value) (id : String) :
    name? v = some id ↔ v = .text id ∧ id ≠ "" := by
  unfold name?
  split
  · rename_i s
    split
    · rename_i hs
      rw [String.isEmpty_iff] at hs
      subst hs
      simp
    · rename_i hs
      rw [String.isEmpty_iff] at hs
      constructor
      · intro h
        cases h
        exact ⟨rfl, hs⟩
      · rintro ⟨h, -⟩
        cases h
        rfl
  · rename_i hv
    simp only [reduceCtorEq, false_iff]
    rintro ⟨rfl, -⟩
    exact hv id rfl

/-- An action is made of the fields of its configuration. -/
theorem exists_parseKind {path : String} {raw : Value} {action : Action}
    (h : parse path raw = .ok action) :
    ∃ kind id config, (∀ name, Fields.field config name = (raw.field "config").field name) ∧
      parseKind id (path ++ ".config") config kind = .ok action := by
  unfold parse at h
  split at h
  · cases h
  · rename_i fields hfields
    obtain rfl := Value.fields?_eq_some hfields
    simp only at h
    split at h
    · cases h
    · rename_i kind _
      obtain ⟨id, -, h⟩ := bind_eq_ok_iff.mp h
      obtain ⟨config, hconfig, h⟩ := bind_eq_ok_iff.mp h
      refine ⟨kind, id, config, ?_, h⟩
      have hfield : Value.field (.object fields) "config" = Fields.field fields "config" := rfl
      rw [hfield]
      unfold parseConfig at hconfig
      split at hconfig
      · rename_i hnull
        cases hconfig
        rw [hnull]
        exact fun _ => rfl
      · rename_i hobject
        cases hconfig
        rw [hobject]
        exact fun _ => rfl
      · cases hconfig

section Webhook

variable {path : String} {hook : Webhook}

theorem parseWebhook_eq_ok {id : String} {config : Fields}
    (h : parseWebhook id path config = .ok hook) :
    ∃ url method mapping, name? (Fields.field config "url") = some url ∧
      parseMethod path (Fields.field config "method") = .ok method ∧
      parseMapping (path ++ ".responseMapping") (Fields.field config "responseMapping") =
        .ok mapping ∧
      hook = ⟨id, url, method, Fields.field config "body", mapping⟩ := by
  unfold parseWebhook at h
  split at h
  · cases h
  · rename_i url hurl
    obtain ⟨method, hmethod, h⟩ := bind_eq_ok_iff.mp h
    obtain ⟨mapping, hmapping, h⟩ := bind_eq_ok_iff.mp h
    cases h
    exact ⟨url, method, mapping, hurl, hmethod, hmapping, rfl⟩

theorem exists_parseWebhook {raw : Value} (h : parse path raw = .ok (.webhook hook)) :
    ∃ id config, (∀ name, Fields.field config name = (raw.field "config").field name) ∧
      parseWebhook id (path ++ ".config") config = .ok hook := by
  obtain ⟨kind, id, config, hconfig, hkind⟩ := exists_parseKind h
  cases kind with
  | setState =>
    unfold parseKind at hkind
    simp only at hkind
    split at hkind <;> cases hkind
  | consoleLog => cases hkind
  | alert => cases hkind
  | webhook =>
    obtain ⟨found, hfound, heq⟩ := map_eq_ok_iff.mp hkind
    cases heq
    exact ⟨id, config, hconfig, hfound⟩

end Webhook

/-! ## Sound actions -/

def methodNames : List String := ["GET", "POST", "PUT", "PATCH", "DELETE"]

/-- An action that has all that its kind asks for. -/
def Sound : Action → Prop
  | .setState _ key _ => key ≠ ""
  | .consoleLog .. => True
  | .alert .. => True
  | .webhook hook =>
    hook.url ≠ "" ∧ hook.method.text ∈ methodNames ∧
      ∀ key source, (key, source) ∈ hook.mapping → key ≠ "" ∧ source ≠ ""

theorem text_mem_methodNames (method : Method) : method.text ∈ methodNames := by
  cases method <;> simp [Method.text, methodNames]

theorem parseTargets_ne_empty {path : String} {fields : Fields} {targets : List (String × String)}
    (h : parseTargets path fields = .ok targets) :
    ∀ key source, (key, source) ∈ targets → key ≠ "" ∧ source ≠ "" := by
  induction fields generalizing targets with
  | nil =>
    cases h
    nofun
  | cons field rest ih =>
    unfold parseTargets at h
    split at h
    · rename_i heq
      cases heq
    · cases h
    · rename_i key v rest' hkey heq
      cases heq
      split at h
      · cases h
      · rename_i source hsource
        obtain ⟨others, hothers, rfl⟩ := map_eq_ok_iff.mp h
        intro k s hmem
        rcases List.mem_cons.mp hmem with heq | hmem
        · cases heq
          refine ⟨?_, ((name?_eq_some_iff ..).mp hsource).2⟩
          rintro rfl
          exact hkey rfl
        · exact ih hothers k s hmem
    · cases h

theorem parseMapping_ne_empty {path : String} {v : Value} {targets : List (String × String)}
    (h : parseMapping path v = .ok targets) :
    ∀ key source, (key, source) ∈ targets → key ≠ "" ∧ source ≠ "" := by
  unfold parseMapping at h
  split at h
  · cases h
    nofun
  · cases h
    nofun
  · exact parseTargets_ne_empty h
  · cases h

/-- Only sound actions are parsed. -/
theorem parse_sound {path : String} {raw : Value} {action : Action}
    (h : parse path raw = .ok action) : action.Sound := by
  obtain ⟨kind, id, config, -, hkind⟩ := exists_parseKind h
  cases kind with
  | setState =>
    unfold parseKind at hkind
    simp only at hkind
    split at hkind
    · cases hkind
    · rename_i key hkey
      cases hkind
      exact ((name?_eq_some_iff ..).mp hkey).2
  | consoleLog =>
    cases hkind
    trivial
  | alert =>
    cases hkind
    trivial
  | webhook =>
    obtain ⟨hook, hhook, rfl⟩ := map_eq_ok_iff.mp hkind
    obtain ⟨url, method, mapping, hurl, -, hmapping, rfl⟩ := parseWebhook_eq_ok hhook
    exact ⟨((name?_eq_some_iff ..).mp hurl).2, text_mem_methodNames method,
      parseMapping_ne_empty hmapping⟩

end PageBuilder.Action
