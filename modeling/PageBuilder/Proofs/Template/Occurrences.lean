import PageBuilder.Proofs.Template.References

/-!
Where references occur in a text: at every place where something free of braces stands between two
opening and two closing ones.

* `Occurs`: the occurrences of references in a text, each with what is before it and after it;
* `Occurs.apart`: they do not overlap;
* `Dissects`: a text is taken apart into its occurrences and the characters outside of them;
* `dissects_iff`: that is what the pieces of a text are, and nothing else;
* `soleReference?_eq_some_iff`: the texts that are one occurrence with blanks around it.
-/

namespace PageBuilder.Template

/-! ## Occurrences -/

/-- The text of a reference. -/
def braced (inner : List Char) : List Char := '{' :: '{' :: (inner ++ ['}', '}'])

/-- A reference stands in a text, with `before` and `after` around it. -/
structure Occurs (s before inner after : List Char) : Prop where
  whole : s = before ++ (braced inner ++ after)
  ne_nil : inner ≠ []
  plain : ∀ c ∈ inner, isPlain c = true

theorem ne_brace_of_isPlain {c : Char} (h : isPlain c = true) : c ≠ '{' := by
  rintro rfl
  exact absurd h (by decide)

/-- What is taken off the start of a text is the inside of a reference. -/
theorem plain_of_reference? {s inner after : List Char}
    (h : reference? s = some (inner, after)) : inner ≠ [] ∧ ∀ c ∈ inner, isPlain c = true := by
  unfold reference? at h
  split at h
  · rename_i rest
    split at h
    · rename_i htake _
      cases h
      have hall := List.all_takeWhile (p := isPlain) (l := rest)
      rw [htake] at hall
      exact ⟨List.cons_ne_nil _ _, List.all_eq_true.mp hall⟩
    · cases h
  · cases h

section Occurs

variable {s t before inner after before' inner' after' : List Char}

/-- A reference is taken off the start of a text just if it occurs there. -/
theorem reference?_eq_some_iff :
    reference? s = some (inner, after) ↔ Occurs s [] inner after := by
  constructor
  · intro h
    obtain ⟨hne, hplain⟩ := plain_of_reference? h
    refine ⟨?_, hne, hplain⟩
    rw [eq_of_reference? h]
    simp [braced]
  · rintro ⟨rfl, hne, hplain⟩
    have htake : (inner ++ '}' :: '}' :: after).takeWhile isPlain = inner := by
      rw [List.takeWhile_append_of_pos hplain, List.takeWhile_cons_of_neg (by decide),
        List.append_nil]
    have hdrop : (inner ++ '}' :: '}' :: after).dropWhile isPlain = '}' :: '}' :: after := by
      rw [List.dropWhile_append_of_pos hplain, List.dropWhile_cons_of_neg (by decide)]
    have hwhole : [] ++ (braced inner ++ after) = '{' :: '{' :: (inner ++ '}' :: '}' :: after) := by
      simp [braced]
    obtain ⟨c, rest, rfl⟩ := List.exists_cons_of_ne_nil hne
    simp only [hwhole, reference?, htake, hdrop]

/-- What occurs in the rest of a text occurs in the text. -/
theorem Occurs.append_left (h : Occurs s before inner after) (t : List Char) :
    Occurs (t ++ s) (t ++ before) inner after where
  whole := by rw [h.whole, List.append_assoc]
  ne_nil := h.ne_nil
  plain := h.plain

theorem occurs_append_left_iff :
    Occurs (t ++ s) (t ++ before) inner after ↔ Occurs s before inner after := by
  refine ⟨fun h => ⟨?_, h.ne_nil, h.plain⟩, fun h => h.append_left t⟩
  have hwhole := h.whole
  rwa [List.append_assoc, List.append_cancel_left_eq] at hwhole

theorem not_occurs_nil : ¬ Occurs [] before inner after := by
  intro h
  simpa [braced] using h.whole

theorem ne_brace_of_mem_closed (h : ∀ c ∈ inner, isPlain c = true) :
    ∀ c ∈ inner ++ ['}', '}'], c ≠ '{' := by
  intro c hc
  rcases List.mem_append.mp hc with hc | hc
  · exact ne_brace_of_isPlain (h c hc)
  · rintro rfl
    exact absurd hc (by decide)

/-- No reference begins inside of another one: behind the first brace of it there are no two opening
braces. -/
theorem Occurs.beyond (h : Occurs s [] inner after) (h' : Occurs s before' inner' after')
    (hne : before' ≠ []) : ∃ between, before' = braced inner ++ between ∧
      Occurs after between inner' after' := by
  have hwhole : braced inner ++ after = before' ++ (braced inner' ++ after') :=
    h.whole.symm.trans h'.whole
  have hclosed := ne_brace_of_mem_closed h.plain
  rcases List.append_eq_append_iff.mp hwhole with ⟨between, rfl, hafter⟩ | ⟨tail, hbraced, htail⟩
  · exact ⟨between, rfl, hafter, h'.ne_nil, h'.plain⟩
  · rw [braced, List.cons_append, List.cons_append] at htail
    match before', tail, hne with
    | _ :: _, [], _ =>
      rw [List.append_nil] at hbraced
      exact ⟨[], by rw [hbraced, List.append_nil], htail.symm, h'.ne_nil, h'.plain⟩
    | [_], _ :: second, _ =>
      have hsecond : inner ++ ['}', '}'] = second := (List.cons.inj (List.cons.inj hbraced).2).2
      obtain ⟨c, rest, hc⟩ := List.exists_cons_of_ne_nil (l := second) (by rw [← hsecond]; simp)
      rw [hc] at htail hsecond
      refine absurd ?_ (hclosed c (hsecond ▸ List.mem_cons_self ..))
      exact (List.cons.inj (List.cons.inj htail).2).1.symm
    | _ :: _ :: b, c :: second, _ =>
      have hc : c ∈ inner ++ ['}', '}'] := by
        rw [(List.cons.inj (List.cons.inj hbraced).2).2]
        exact List.mem_append_right _ (List.mem_cons_self ..)
      exact absurd (List.cons.inj htail).1.symm (hclosed c hc)

/-- Two occurrences are one, or one ends before the other begins. -/
theorem Occurs.apart (h : Occurs s before inner after) (h' : Occurs s before' inner' after') :
    (before = before' ∧ inner = inner' ∧ after = after') ∨
      before.length + (braced inner).length ≤ before'.length ∨
      before'.length + (braced inner').length ≤ before.length := by
  induction before generalizing s before' with
  | nil =>
    cases before' with
    | nil =>
      have hsame := (reference?_eq_some_iff.mpr h).symm.trans (reference?_eq_some_iff.mpr h')
      cases hsame
      exact .inl ⟨rfl, rfl, rfl⟩
    | cons c rest =>
      obtain ⟨between, hbetween, -⟩ := h.beyond h' (List.cons_ne_nil _ _)
      refine .inr (.inl ?_)
      rw [hbetween, List.length_append, List.length_nil]
      omega
  | cons c rest ih =>
    cases before' with
    | nil =>
      obtain ⟨between, hbetween, -⟩ := h'.beyond h (List.cons_ne_nil _ _)
      refine .inr (.inr ?_)
      rw [hbetween, List.length_append, List.length_nil]
      omega
    | cons d rest' =>
      have hwhole := h.whole.symm.trans h'.whole
      obtain ⟨rfl, -⟩ := List.cons.inj hwhole
      obtain ⟨t, rfl⟩ : ∃ t, s = [c] ++ t := ⟨_, h.whole⟩
      rw [List.length_cons, List.length_cons]
      rcases ih (occurs_append_left_iff.mp h) (occurs_append_left_iff.mp h') with
        ⟨rfl, rfl, rfl⟩ | hle | hle
      · exact .inl ⟨rfl, rfl, rfl⟩
      · exact .inr (.inl (by omega))
      · exact .inr (.inr (by omega))

end Occurs

/-! ## Texts taken apart -/

/-- What a piece is in the text. -/
def Piece.source : Piece → List Char
  | literal c => [c]
  | reference inner => braced inner

/-- A text is taken apart into single characters and all its occurrences of references, each in its
place. -/
structure Dissects (ps : List Piece) (s : List Char) : Prop where
  whole : ps.flatMap Piece.source = s
  occurs_iff : ∀ before inner after, Occurs s before inner after ↔
    ∃ qs rs, ps = qs ++ .reference inner :: rs ∧ qs.flatMap Piece.source = before ∧
      rs.flatMap Piece.source = after

/-- A text begins with a piece: the only occurrence that begins within the piece is the piece. -/
structure Heads (p : Piece) (s rest : List Char) : Prop where
  whole : s = p.source ++ rest
  occurs_iff : ∀ before inner after, Occurs s before inner after ↔
    (p = .reference inner ∧ before = [] ∧ after = rest) ∨
      ∃ between, before = p.source ++ between ∧ Occurs rest between inner after

theorem heads_reference {s inner after : List Char} (h : reference? s = some (inner, after)) :
    Heads (.reference inner) s after := by
  have hfirst := reference?_eq_some_iff.mp h
  refine ⟨hfirst.whole, fun before inner' after' => ⟨fun h' => ?_, ?_⟩⟩
  · cases before with
    | nil =>
      cases h.symm.trans (reference?_eq_some_iff.mpr h')
      exact .inl ⟨rfl, rfl, rfl⟩
    | cons c rest => exact .inr (hfirst.beyond h' (List.cons_ne_nil _ _))
  · rintro (⟨heq, rfl, rfl⟩ | ⟨between, rfl, hbetween⟩)
    · cases heq
      exact hfirst
    · rw [hfirst.whole]
      exact hbetween.append_left _

theorem heads_literal {c : Char} {rest : List Char} (h : reference? (c :: rest) = none) :
    Heads (.literal c) (c :: rest) rest := by
  refine ⟨rfl, fun before inner' after' => ⟨fun h' => ?_, ?_⟩⟩
  · cases before with
    | nil => cases h.symm.trans (reference?_eq_some_iff.mpr h')
    | cons d between =>
      obtain ⟨rfl, -⟩ := List.cons.inj h'.whole
      exact .inr ⟨between, rfl, occurs_append_left_iff (t := [c]).mp h'⟩
  · rintro (⟨heq, -, -⟩ | ⟨between, rfl, hbetween⟩)
    · cases heq
    · exact hbetween.append_left [c]

theorem sources_eq_nil_iff {ps : List Piece} : ps.flatMap Piece.source = [] ↔ ps = [] := by
  cases ps with
  | nil => simp
  | cons p ps => cases p <;> simp [Piece.source, braced]

/-- A text that begins with a piece is taken apart into that piece and what its rest is taken apart
into. -/
theorem dissects_cons_iff {p : Piece} {ps : List Piece} {s rest : List Char}
    (hp : Heads p s rest) : Dissects (p :: ps) s ↔ Dissects ps rest := by
  have hsources : ∀ qs : List Piece,
      (p :: qs).flatMap Piece.source = p.source ++ qs.flatMap Piece.source :=
    fun _ => List.flatMap_cons
  constructor
  · intro h
    refine ⟨?_, fun before inner after => ⟨fun hrest => ?_, ?_⟩⟩
    · have hwhole := h.whole
      rwa [hsources, hp.whole, List.append_cancel_left_eq] at hwhole
    · obtain ⟨qs, rs, heq, hbefore, rfl⟩ :=
        (h.occurs_iff ..).mp ((hp.occurs_iff ..).mpr (.inr ⟨before, rfl, hrest⟩))
      cases qs with
      | nil =>
        have hnil : ([p] : List Piece).flatMap Piece.source = [] := by
          simpa using (List.append_eq_nil_iff.mp hbefore.symm).1
        cases sources_eq_nil_iff.mp hnil
      | cons q qs =>
        obtain ⟨rfl, rfl⟩ := List.cons.inj heq
        rw [hsources, List.append_cancel_left_eq] at hbefore
        exact ⟨qs, rs, rfl, hbefore, rfl⟩
    · rintro ⟨qs, rs, rfl, rfl, rfl⟩
      have hoccurs := (h.occurs_iff ..).mpr ⟨p :: qs, rs, rfl, rfl, rfl⟩
      rw [hp.whole, hsources] at hoccurs
      exact occurs_append_left_iff.mp hoccurs
  · intro h
    refine ⟨?_, fun before inner after => (hp.occurs_iff ..).trans ⟨?_, ?_⟩⟩
    · rw [hsources, h.whole, hp.whole]
    · rintro (⟨rfl, rfl, rfl⟩ | ⟨between, rfl, hbetween⟩)
      · exact ⟨[], ps, rfl, rfl, h.whole⟩
      · obtain ⟨qs, rs, rfl, rfl, rfl⟩ := (h.occurs_iff ..).mp hbetween
        exact ⟨p :: qs, rs, rfl, hsources qs, rfl⟩
    · rintro ⟨qs, rs, heq, rfl, rfl⟩
      cases qs with
      | nil =>
        obtain ⟨rfl, rfl⟩ := List.cons.inj heq
        exact .inl ⟨rfl, rfl, h.whole⟩
      | cons q qs =>
        obtain ⟨rfl, rfl⟩ := List.cons.inj heq
        exact .inr ⟨_, hsources qs, (h.occurs_iff ..).mpr ⟨qs, rs, rfl, rfl, rfl⟩⟩

theorem dissects_nil : Dissects [] [] := by
  refine ⟨rfl, fun before inner after => iff_of_false not_occurs_nil ?_⟩
  rintro ⟨qs, rs, heq, -⟩
  simp at heq

theorem dissects_pieces (s : List Char) : Dissects (pieces s) s := by
  induction s using pieces.induct with
  | case1 =>
    rw [pieces]
    exact dissects_nil
  | case2 c rest inner after href ih =>
    rw [pieces_of_reference? href]
    exact (dissects_cons_iff (heads_reference href)).mpr ih
  | case3 c rest href ih =>
    rw [pieces_cons_of_none href]
    exact (dissects_cons_iff (heads_literal href)).mpr ih

/-- The first piece is the reference at the start, if there is one, and a character otherwise. -/
theorem Dissects.eq_pieces {ps : List Piece} {s : List Char} (h : Dissects ps s) :
    ps = pieces s := by
  induction s using pieces.induct generalizing ps with
  | case1 =>
    rw [pieces]
    exact sources_eq_nil_iff.mp h.whole
  | case2 c rest inner after href ih =>
    obtain ⟨qs, rs, rfl, hqs, -⟩ := (h.occurs_iff ..).mp (reference?_eq_some_iff.mp href)
    obtain rfl := sources_eq_nil_iff.mp hqs
    rw [pieces_of_reference? href, List.nil_append,
      ih ((dissects_cons_iff (heads_reference href)).mp h)]
  | case3 c rest href ih =>
    have hwhole := h.whole
    cases ps with
    | nil => cases hwhole
    | cons p ps =>
      cases p with
      | literal d =>
        obtain ⟨rfl, -⟩ := List.cons.inj hwhole
        rw [pieces_cons_of_none href, ih ((dissects_cons_iff (heads_literal href)).mp h)]
      | reference inner =>
        have hfirst := reference?_eq_some_iff.mpr ((h.occurs_iff ..).mpr ⟨[], ps, rfl, rfl, rfl⟩)
        cases href.symm.trans hfirst

/-- A text is taken apart in one way only, which is into its pieces. -/
theorem dissects_iff {ps : List Piece} {s : List Char} : Dissects ps s ↔ ps = pieces s := by
  refine ⟨Dissects.eq_pieces, ?_⟩
  rintro rfl
  exact dissects_pieces s

/-- Of three braces the inner two belong to the reference. -/
example : pieces ['{', '{', '{', 'a', '}', '}', '}', '{', '{'] =
    [.literal '{', .reference ['a'], .literal '}', .literal '{', .literal '{'] := by cbv

/-! ## Sole occurrences -/

/-- The path that a reference names. -/
def pathOf (inner : List Char) : String := String.ofList (Text.trim inner)

def Blank (s : List Char) : Prop := ∀ c ∈ s, Text.isBlank c = true

/-- A text is one reference with blanks around it just if some occurrence has blanks around it. -/
theorem soleReference?_eq_some_iff {s : List Char} {path : String} :
    soleReference? s = some path ↔
      ∃ before inner after, Occurs s before inner after ∧ Blank before ∧ Blank after ∧
        path = pathOf inner := by
  constructor
  · intro h
    unfold soleReference? at h
    split at h
    · rename_i inner after href
      split at h
      · rename_i hafter
        cases h
        have hbefore := List.all_takeWhile (p := Text.isBlank) (l := s)
        have hoccurs := (reference?_eq_some_iff.mp href).append_left (s.takeWhile Text.isBlank)
        rw [List.takeWhile_append_dropWhile, List.append_nil] at hoccurs
        exact ⟨_, inner, after, hoccurs, List.all_eq_true.mp hbefore, List.all_eq_true.mp hafter,
          rfl⟩
      · cases h
    · cases h
  · rintro ⟨before, inner, after, hoccurs, hbefore, hafter, rfl⟩
    have hdrop : s.dropWhile Text.isBlank = braced inner ++ after := by
      rw [hoccurs.whole, List.dropWhile_append_of_pos hbefore, braced, List.cons_append,
        List.dropWhile_cons_of_neg (by decide)]
    have href : reference? (s.dropWhile Text.isBlank) = some (inner, after) :=
      reference?_eq_some_iff.mpr ⟨hdrop, hoccurs.ne_nil, hoccurs.plain⟩
    rw [soleReference?, href]
    simp only [List.all_eq_true.mpr hafter, if_true, pathOf]

end PageBuilder.Template
