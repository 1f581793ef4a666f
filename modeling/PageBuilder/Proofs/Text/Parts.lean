import PageBuilder.Text.Blank

/-!
Laws of trimming, of the parts of a text between marks, and of its lines.

* `trimBoth_eq_self`, `trimBoth_padded`: what is trimmed is what stands at the ends;
* `parts_marked`: texts without the mark, each behind a mark, are the parts of their whole;
* `lines_unifyNewlines`: the lines are the same however the text writes its line ends.
-/

namespace PageBuilder.Text

/-! ## Trimming -/

section Trimming

variable {p : Char → Bool} {s : List Char}

/-- No end of a text is trimmed: neither its first character nor its last one. -/
structure Trimmed (p : Char → Bool) (s : List Char) : Prop where
  first : ∀ c ∈ s.head?, p c = false
  last : ∀ c ∈ s.getLast?, p c = false

theorem dropWhile_eq_self (h : ∀ c ∈ s.head?, p c = false) : s.dropWhile p = s := by
  cases s with
  | nil => rfl
  | cons c rest => exact List.dropWhile_cons_of_neg (by simp [h c rfl])

theorem trimEnd_eq_self (h : ∀ c ∈ s.getLast?, p c = false) : trimEnd p s = s := by
  have hreverse : s.reverse.dropWhile p = s.reverse := by
    apply dropWhile_eq_self
    rwa [List.head?_reverse]
  rw [trimEnd, hreverse, List.reverse_reverse]

theorem trimBoth_eq_self (h : Trimmed p s) : trimBoth p s = s := by
  rw [trimBoth, dropWhile_eq_self h.first, trimEnd_eq_self h.last]

theorem trimmed_of_forall (h : ∀ c ∈ s, p c = false) : Trimmed p s where
  first := fun c hc => h c (List.mem_of_mem_head? hc)
  last := fun c hc => h c (List.mem_of_mem_getLast? hc)

/-- A text between two characters is trimmed if these two are not. -/
theorem trimmed_enclosed {c d : Char} (hc : p c = false) (hd : p d = false) :
    Trimmed p (c :: (s ++ [d])) where
  first := by
    intro e he
    rw [List.head?_cons, Option.mem_some_iff] at he
    rwa [← he]
  last := by
    intro e he
    rw [← List.cons_append, List.getLast?_concat, Option.mem_some_iff] at he
    rwa [← he]

theorem trimEnd_append {after : List Char} (h : ∀ c ∈ after, p c = true) :
    trimEnd p (s ++ after) = trimEnd p s := by
  have hreverse : ∀ c ∈ after.reverse, p c = true := fun c hc => h c (List.mem_reverse.mp hc)
  rw [trimEnd, trimEnd, List.reverse_append, List.dropWhile_append_of_pos hreverse]

/-- What is trimmed and stands around a text that is trimmed is taken off, and nothing else. -/
theorem trimBoth_padded {before after : List Char} (hbefore : ∀ c ∈ before, p c = true)
    (hafter : ∀ c ∈ after, p c = true) (hne : s ≠ []) (h : Trimmed p s) :
    trimBoth p (before ++ (s ++ after)) = s := by
  have hfirst : (s ++ after).dropWhile p = s ++ after := by
    apply dropWhile_eq_self
    cases s with
    | nil => exact absurd rfl hne
    | cons c rest => exact h.first
  rw [trimBoth, List.dropWhile_append_of_pos hbefore, hfirst, trimEnd_append hafter,
    trimEnd_eq_self h.last]

theorem trimBoth_enclosed {c d : Char} (hc : p c = true) (hd : p d = true) (hne : s ≠ [])
    (h : Trimmed p s) : trimBoth p (c :: (s ++ [d])) = s := by
  have hbefore : ∀ e ∈ [c], p e = true := List.forall_mem_singleton.mpr hc
  exact trimBoth_padded hbefore (List.forall_mem_singleton.mpr hd) hne h

theorem head_of_dropWhile_eq_self (h : s.dropWhile p = s) : ∀ c ∈ s.head?, p c = false := by
  cases s with
  | nil => nofun
  | cons c rest =>
    rintro d hd
    obtain rfl : c = d := Option.some.inj hd
    cases hc : p c with
    | false => rfl
    | true =>
      rw [List.dropWhile_cons_of_pos hc] at h
      have hlength := (List.dropWhile_suffix (l := rest) p).length_le
      rw [h, List.length_cons] at hlength
      omega

/-- A text of which nothing is taken off is trimmed. -/
theorem trimmed_of_trimBoth_eq_self (h : trimBoth p s = s) : Trimmed p s := by
  have hdrop : (s.dropWhile p).length ≤ s.length := (List.dropWhile_suffix p).length_le
  have hend : (trimBoth p s).length ≤ (s.dropWhile p).length := by
    have hreverse := ((s.dropWhile p).reverse.dropWhile_suffix p).length_le
    rw [List.length_reverse] at hreverse
    rwa [trimBoth, trimEnd, List.length_reverse]
  have hfirst : s.dropWhile p = s := by
    refine (List.dropWhile_suffix p).eq_of_length (Nat.le_antisymm hdrop ?_)
    rwa [h] at hend
  have hlast : s.reverse.dropWhile p = s.reverse := by
    rw [trimBoth, hfirst, trimEnd] at h
    exact List.reverse_eq_iff.mp h
  refine ⟨head_of_dropWhile_eq_self hfirst, fun c hc => ?_⟩
  apply head_of_dropWhile_eq_self hlast
  rwa [List.head?_reverse]

end Trimming

/-! ## Parts -/

theorem parts_of_not_mem {mark : Char} {s : List Char} (h : mark ∉ s) : parts mark s = [s] := by
  induction s with
  | nil => rfl
  | cons c rest ih =>
    rw [List.mem_cons, not_or] at h
    rw [parts, if_neg (Ne.symm h.1), ih h.2]

theorem parts_append {mark : Char} {s : List Char} (h : mark ∉ s) (rest : List Char) :
    parts mark (s ++ mark :: rest) = s :: parts mark rest := by
  induction s with
  | nil => rw [List.nil_append, parts, if_pos rfl]
  | cons c s ih =>
    rw [List.mem_cons, not_or] at h
    rw [List.cons_append, parts, if_neg (Ne.symm h.1), ih h.2]

/-- Texts without the mark, each behind a mark, are the parts of their whole, after an empty one. -/
theorem parts_marked {mark : Char} {texts : List (List Char)} (h : ∀ s ∈ texts, mark ∉ s) :
    parts mark (texts.flatMap fun s => mark :: s) = [] :: texts := by
  suffices hall : ∀ s, mark ∉ s →
      parts mark (s ++ texts.flatMap fun s => mark :: s) = s :: texts from
    hall [] List.not_mem_nil
  induction texts with
  | nil =>
    intro s hs
    rw [List.flatMap_nil, List.append_nil, parts_of_not_mem hs]
  | cons t texts ih =>
    intro s hs
    rw [List.flatMap_cons, List.cons_append, parts_append hs,
      ih (fun u hu => h u (List.mem_cons_of_mem _ hu)) t (h t (List.mem_cons_self ..))]

/-! ## Lines -/

/-- The lines of a text that does not begin with the line end of two characters. -/
theorem lines_cons {c : Char} {rest : List Char}
    (hpair : ∀ others, c = '\r' → rest = '\n' :: others → False) :
    lines (c :: rest) =
      if isLineBreak c = true then [] :: lines rest
      else match lines rest with
        | [] => [[c]]
        | line :: others => (c :: line) :: others := by
  cases rest with
  | nil => exact lines.eq_3 c hpair
  | cons d rest => exact lines.eq_4 c (d :: rest) hpair (List.cons_ne_nil d rest)

theorem lines_lineFeed (rest : List Char) : lines ('\n' :: rest) = [] :: lines rest := by
  rw [lines_cons fun _ h => absurd h (by decide), if_pos (by rfl)]

theorem lines_unifyNewlines (s : List Char) : lines (unifyNewlines s) = lines s := by
  induction s using unifyNewlines.induct with
  | case1 => rfl
  | case2 rest ih => rw [unifyNewlines, lines_lineFeed, ih, lines]
  | case3 c rest hpair ih =>
    rw [unifyNewlines.eq_3 c rest hpair, lines_cons hpair]
    by_cases hc : c = '\r'
    · subst hc
      rw [if_pos rfl, lines_lineFeed, ih, if_pos (by rfl)]
    · rw [if_neg hc, lines_cons fun _ h => absurd h hc, ih]

end PageBuilder.Text
