import PageBuilder.Proofs.Path.Address
import PageBuilder.Proofs.Results

/-!
Paths that can not be followed.

* `Spoiled`: a step of digits that is no numeral;
* `spoiled_iff`: there is a digit mark in it;
* `Stalls`: the steps of a path lead down to a list, and the next one is spoiled;
* `fails_lookup_iff`: nothing else keeps a path from being followed.
-/

namespace PageBuilder.Path

/-! ## Steps -/

/-- A step of characters that count as digits, but that is no numeral. -/
def Spoiled (step : String) : Prop :=
  step.toList.all Text.isDigit = true ∧ Text.Numeral.integer? step.toList = none

theorem spoiled_iff {step : String} (hne : step.toList ≠ []) :
    Spoiled step ↔ Text.Digits step.toList ∧ ∃ c ∈ step.toList, Text.isDigitMark c = true := by
  refine and_congr_right fun hdigits => ?_
  rw [Text.Numeral.integer?_eq_none_iff hdigits, or_iff_right hne]

example : Spoiled "²" := ⟨by decide, by decide⟩

theorem toList_ne_nil_of_mem_steps {path step : String} (h : step ∈ steps path) :
    step.toList ≠ [] := by
  obtain ⟨s, hs, rfl⟩ := List.mem_map.mp h
  rw [String.toList_ofList]
  rintro rfl
  exact absurd (List.mem_filter.mp hs).2 (by decide)

theorem fails_item_iff {items : List Value} {step : String} :
    Fails (item items step) ↔ Spoiled step := by
  unfold item
  split
  · rename_i hdigits
    rw [fails_map_iff, Spoiled, and_iff_right hdigits, numeralOfText, numeral]
    cases Text.Numeral.integer? step.toList with
    | none => exact iff_of_true (fails_error _) rfl
    | some n =>
      refine iff_of_false (not_fails_ok n) fun hnone => ?_
      cases hnone
  · rename_i hdigits
    exact iff_of_false (not_fails_ok _) fun hspoiled => hdigits hspoiled.1

theorem fails_down_iff {v : Value} {step : String} :
    Fails (down v step) ↔ (∃ items, v.items? = some items) ∧ Spoiled step := by
  cases hitems : v.items? with
  | some items =>
    rw [down_of_items? hitems, fails_item_iff]
    exact (and_iff_right ⟨items, rfl⟩).symm
  | none =>
    have hok : ¬ Fails (down v step) := by
      cases v with
      | atom a => exact not_fails_ok _
      | object fields => exact not_fails_ok _
      | list items => cases hitems
      | tuple items => cases hitems
    refine iff_of_false hok ?_
    rintro ⟨⟨items, hsome⟩, -⟩
    cases hsome

/-! ## Paths -/

/-- The steps of a path lead down to a list, where the next one is made of digits with a mark among
them. -/
inductive Stalls : Value → List String → Prop where
  | here {v : Value} {items : List Value} {step : String} {rest : List String}
      (members : v.items? = some items) (digits : Text.Digits step.toList)
      (mark : ∃ c ∈ step.toList, Text.isDigitMark c = true) : Stalls v (step :: rest)
  | onward {v next : Value} {step : String} {rest : List String}
      (leads : down v step = .ok next) (stalls : Stalls next rest) : Stalls v (step :: rest)

theorem not_stalls_missing (path : List String) : ¬ Stalls .missing path := by
  induction path with
  | nil => nofun
  | cons step rest ih =>
    intro h
    cases h with
    | here members _ _ => cases members
    | onward leads stalls =>
      cases leads
      exact ih stalls

theorem Stalls.spoiled {v : Value} {path : List String} (h : Stalls v path) :
    ∃ step ∈ path, Spoiled step := by
  induction h with
  | here _ hdigits hmark =>
    exact ⟨_, List.mem_cons_self .., hdigits,
      (Text.Numeral.integer?_eq_none_iff hdigits).mpr (.inr hmark)⟩
  | onward _ _ ih =>
    obtain ⟨step, hstep, hspoiled⟩ := ih
    exact ⟨step, List.mem_cons_of_mem _ hstep, hspoiled⟩

theorem fails_follow_iff {path : List String} (hne : ∀ step ∈ path, step.toList ≠ [])
    {v : Value} : Fails (follow v path) ↔ Stalls v path := by
  induction path generalizing v with
  | nil => exact iff_of_false (not_fails_ok v) nofun
  | cons step rest ih =>
    rw [List.forall_mem_cons] at hne
    rw [follow]
    cases hdown : down v step with
    | error f =>
      obtain ⟨⟨items, hitems⟩, hspoiled⟩ := fails_down_iff.mp ⟨f, hdown⟩
      obtain ⟨hdigits, hmark⟩ := (spoiled_iff hne.1).mp hspoiled
      exact iff_of_true (fails_error f) (.here hitems hdigits hmark)
    | ok next =>
      -- A list that has taken this step does not stall at it.
      have honward : Stalls v (step :: rest) ↔ Stalls next rest := by
        refine ⟨fun h => ?_, .onward hdown⟩
        cases h with
        | here members digits mark =>
          have hfails := fails_down_iff.mpr ⟨⟨_, members⟩, (spoiled_iff hne.1).mpr ⟨digits, mark⟩⟩
          rw [hdown] at hfails
          exact absurd hfails (not_fails_ok next)
        | onward leads stalls =>
          cases hdown.symm.trans leads
          exact stalls
      show Fails (if next.isMissing = true then .ok .missing else follow next rest) ↔ _
      rw [honward]
      split
      · rename_i hmissing
        rw [Value.eq_missing hmissing]
        exact iff_of_false (not_fails_ok _) (not_stalls_missing rest)
      · exact ih hne.2

/-- A path can not be followed just if it is no name of a field of the whole value, and its steps
stall. -/
theorem fails_lookup_iff {v : Value} {path : String} :
    Fails (lookup v path) ↔ v.get? path = none ∧ Stalls v (steps path) := by
  rw [lookup, literal?_text]
  cases v.get? path with
  | some found =>
    refine iff_of_false (not_fails_ok found) ?_
    rintro ⟨hnone, -⟩
    cases hnone
  | none =>
    rw [and_iff_right rfl, ← fails_follow_iff fun step => toList_ne_nil_of_mem_steps]
    cases steps path with
    | nil => exact iff_of_false (not_fails_ok _) (not_fails_ok _)
    | cons step rest => rfl

/-- A path that can not be followed has a step of digits that is no numeral. -/
theorem step_of_lookup_error {v : Value} {path : String} {f : Fault}
    (h : lookup v path = .error f) : ∃ step ∈ steps path, Spoiled step :=
  (fails_lookup_iff.mp ⟨f, h⟩).2.spoiled

end PageBuilder.Path
