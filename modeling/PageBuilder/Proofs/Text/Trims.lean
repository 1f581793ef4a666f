import Mathlib.Data.List.DropRight
import PageBuilder.Proofs.Text.Parts

/-!
Trimming and parting, said without the functions that do it.

* `TrimsEnd`, `Trims`: what is left of a text when all is taken off that is to be trimmed;
* `trimsEnd_iff`, `trims_iff`: that is the trimmed text and no other;
* `parts_eq_splitOn`: the parts of a text are those that it is split into;
* `cut?_eq_some_iff`: a text is cut at its first mark.
-/

namespace PageBuilder.Text

variable {p : Char → Bool} {s t : List Char}

/-! ## Trimming -/

/-- The second text is what is left of the first one, with all taken off its end that is to be
trimmed. -/
def TrimsEnd (p : Char → Bool) (s t : List Char) : Prop :=
  (∀ c ∈ t.getLast?, p c = false) ∧ ∃ after, s = t ++ after ∧ ∀ c ∈ after, p c = true

/-- The second text is what is left of the first one, with all taken off both ends that is to be
trimmed. -/
def Trims (p : Char → Bool) (s t : List Char) : Prop :=
  Trimmed p t ∧ ∃ before after, s = before ++ (t ++ after) ∧ (∀ c ∈ before, p c = true) ∧
    ∀ c ∈ after, p c = true

theorem trimsEnd_trimEnd (p : Char → Bool) (s : List Char) : TrimsEnd p s (trimEnd p s) := by
  refine ⟨fun c hc => ?_, s.rtakeWhile p, ?_, fun c hc => List.mem_rtakeWhile_imp hc⟩
  · have hne : s.rdropWhile p ≠ [] := List.ne_nil_of_mem (List.mem_of_mem_getLast? hc)
    have hlast : c = (s.rdropWhile p).getLast hne :=
      Option.some.inj ((Option.mem_def.mp hc).symm.trans (List.getLast?_eq_some_getLast hne))
    rw [hlast, Bool.eq_false_iff]
    exact List.rdropWhile_last_not p s hne
  · exact List.rdropWhile_append_rtakeWhile.symm

theorem trimsEnd_iff : TrimsEnd p s t ↔ t = trimEnd p s := by
  constructor
  · rintro ⟨hlast, after, rfl, hafter⟩
    rw [trimEnd_append hafter, trimEnd_eq_self hlast]
  · rintro rfl
    exact trimsEnd_trimEnd p s

theorem trims_trimBoth (p : Char → Bool) (s : List Char) : Trims p s (trimBoth p s) := by
  obtain ⟨hlast, after, hsplit, hafter⟩ := trimsEnd_trimEnd p (s.dropWhile p)
  have hfirst : ∀ c ∈ (trimBoth p s).head?, p c = false := by
    intro c hc
    refine head_of_dropWhile_eq_self (List.dropWhile_idempotent p s) c ?_
    rw [hsplit]
    exact List.mem_head?_append_of_mem_head? hc
  refine ⟨⟨hfirst, hlast⟩, s.takeWhile p, after, ?_, fun c hc => List.mem_takeWhile_imp hc,
    hafter⟩
  have hwhole : s.takeWhile p ++ s.dropWhile p = s := List.takeWhile_append_dropWhile
  rw [hsplit] at hwhole
  exact hwhole.symm

theorem trims_iff : Trims p s t ↔ t = trimBoth p s := by
  constructor
  · rintro ⟨htrimmed, before, after, rfl, hbefore, hafter⟩
    cases t with
    | nil =>
      rw [trimBoth, List.dropWhile_append_of_pos hbefore, List.nil_append,
        List.dropWhile_eq_nil_iff.mpr hafter]
      rfl
    | cons c t => exact (trimBoth_padded hbefore hafter (List.cons_ne_nil c t) htrimmed).symm
  · rintro rfl
    exact trims_trimBoth p s

/-! ## Parting -/

theorem parts_eq_splitOn (mark : Char) (s : List Char) : parts mark s = s.splitOn mark := by
  induction s with
  | nil => rfl
  | cons c rest ih =>
    rw [List.splitOn, List.splitOnP_cons_eq_if_modifyHead, parts, ih, List.splitOn]
    by_cases hc : c = mark
    · rw [if_pos hc, if_pos (beq_iff_eq.mpr hc)]
    · rw [if_neg hc, if_neg fun heq => hc (beq_iff_eq.mp heq)]
      split
      · rename_i hnil
        exact absurd hnil (List.splitOnP_ne_nil _ _)
      · rename_i hparts
        rw [hparts]
        rfl

/-- A text is cut at its first mark, if it has one. -/
theorem cut?_eq_some_iff {mark : Char} {before after : List Char} :
    cut? mark s = some (before, after) ↔ mark ∉ before ∧ s = before ++ mark :: after := by
  induction s generalizing before with
  | nil => simp [cut?]
  | cons c rest ih =>
    unfold cut?
    cases before with
    | nil => by_cases hc : c = mark <;> simp [hc]
    | cons d before =>
      by_cases hc : c = mark
      · subst hc
        simp only [if_true, Option.some.injEq, Prod.mk.injEq, reduceCtorEq, false_and, false_iff]
        rintro ⟨hmark, heq⟩
        exact hmark (by rw [(List.cons.inj heq).1]; exact List.mem_cons_self ..)
      · rw [if_neg hc, Option.map_eq_some_iff, List.mem_cons, List.cons_append, List.cons.injEq]
        constructor
        · rintro ⟨⟨b, a⟩, hcut, heq⟩
          cases heq
          obtain ⟨hmark, hrest⟩ := ih.mp hcut
          exact ⟨not_or.mpr ⟨Ne.symm hc, hmark⟩, rfl, hrest⟩
        · rintro ⟨hmark, rfl, hrest⟩
          exact ⟨(before, after), ih.mpr ⟨(not_or.mp hmark).2, hrest⟩, rfl⟩

end PageBuilder.Text
