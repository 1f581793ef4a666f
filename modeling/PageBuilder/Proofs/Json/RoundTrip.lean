import Mathlib.Data.List.Forall2
import PageBuilder.Proofs.Json.Number
import PageBuilder.Proofs.Json.Quoted
import PageBuilder.Proofs.Value.Plain

/-!
Values that are written are read back, with every field in its place.

* `Style.Regular`: the layouts that JSON has, with commas, colons and blanks;
* `ReadsBack`: a text is read as a value, whatever follows it;
* `write_readsBack`: if its atoms are, a value is written to a text that reads back;
* `valueOfText_text`: the text of a storable value is read as that value;
* `valueOfText_text_spelled`: so is that of a value with other numbers, where these are read.
-/

namespace PageBuilder.Json

/-! ## Blanks and layouts -/

def AllBlank (s : List Char) : Prop := ∀ c ∈ s, isBlank c = true

/-- A layout with one comma between items, one colon after names, and blanks. -/
structure Style.Regular (style : Style) : Prop where
  comma : ∃ blanks, style.comma = ',' :: blanks ∧ AllBlank blanks
  colon : ∃ blanks, style.colon = ':' :: blanks ∧ AllBlank blanks

theorem AllBlank.append {s t : List Char} (hs : AllBlank s) (ht : AllBlank t) :
    AllBlank (s ++ t) :=
  List.forall_mem_append.mpr ⟨hs, ht⟩

theorem allBlank_nil : AllBlank [] := fun _ h => by cases h

theorem allBlank_newline (style : Style) (depth : Nat) : AllBlank (style.newline depth) := by
  unfold Style.newline
  split
  · exact allBlank_nil
  · intro c hc
    rcases List.mem_cons.mp hc with rfl | hc
    · rfl
    · rw [List.eq_of_mem_replicate hc]
      rfl

theorem regular_compact : Style.compact.Regular :=
  ⟨⟨[], rfl, allBlank_nil⟩, ⟨[], rfl, allBlank_nil⟩⟩

theorem regular_indented : Style.indented.Regular := by
  refine ⟨⟨[], rfl, allBlank_nil⟩, ⟨[' '], rfl, ?_⟩⟩
  intro c hc
  rw [List.mem_singleton] at hc
  rw [hc]
  rfl

/-- A text whose first character is neither a blank nor the end of a list or an object. -/
def Starts (s : List Char) : Prop :=
  ∃ c t, s = c :: t ∧ isBlank c = false ∧ c ≠ ']' ∧ c ≠ '}' ∧ c ≠ '\uFEFF'

theorem skipBlanks_append {blanks : List Char} (hblanks : AllBlank blanks) {c : Char}
    {t : List Char} (hc : isBlank c = false) : skipBlanks (blanks ++ c :: t) = c :: t := by
  unfold skipBlanks
  rw [List.dropWhile_append_of_pos hblanks, List.dropWhile_cons_of_neg (by simp [hc])]

theorem Starts.append {s : List Char} (h : Starts s) (rest : List Char) : Starts (s ++ rest) := by
  obtain ⟨c, t, rfl, hc⟩ := h
  exact ⟨c, t ++ rest, rfl, hc⟩

theorem Starts.skipBlanks {s blanks : List Char} (h : Starts s) (hblanks : AllBlank blanks) :
    skipBlanks (blanks ++ s) = s := by
  obtain ⟨c, t, rfl, hc, -⟩ := h
  exact skipBlanks_append hblanks hc

theorem not_isDigit_of_isBlank {c : Char} (h : isBlank c = true) :
    c.isDigit = false ∧ c ≠ '.' ∧ (c = 'e' || c = 'E') = false := by
  unfold isBlank at h
  simp only [Bool.or_eq_true, decide_eq_true_eq] at h
  rcases h with ((rfl | rfl) | rfl) | rfl <;> decide

/-- Neither a blank nor a mark of JSON goes on with a number. -/
theorem ends_of_cons {c : Char} (h : c.isDigit = false ∧ c ≠ '.' ∧ (c = 'e' || c = 'E') = false)
    (rest : List Char) : Ends (c :: rest) := by
  obtain ⟨hdigit, hpoint, hexponent⟩ := h
  refine ⟨.cons hdigit rest, ?_, ?_⟩
  · intro t heq
    exact hpoint (List.cons.inj heq).1
  · intro d t heq
    rw [← (List.cons.inj heq).1]
    exact hexponent

theorem ends_nil : Ends [] :=
  ⟨fun _ _ h => by simp at h, fun _ h => by simp at h, fun _ _ h => by simp at h⟩

theorem ends_blanks {blanks : List Char} (hblanks : AllBlank blanks) {c : Char}
    (hc : c.isDigit = false ∧ c ≠ '.' ∧ (c = 'e' || c = 'E') = false) (rest : List Char) :
    Ends (blanks ++ c :: rest) := by
  cases blanks with
  | nil => exact ends_of_cons hc rest
  | cons b t => exact ends_of_cons (not_isDigit_of_isBlank (hblanks b (List.mem_cons_self ..))) _

/-! ## Texts that read back -/

/-- A text that is read as a value, whatever follows it that does not go on with a number. -/
structure ReadsBack (rules : Rules) (part : List Char) (v : Value) : Prop where
  starts : Starts part
  back : ∀ (rest : List Char) (fuel : Nat), Ends rest →
    2 * (part ++ rest).length ≤ fuel → readValue rules fuel (part ++ rest) = .ok (v, rest)

/-- A text of some length is given fuel. -/
theorem exists_fuel {part rest : List Char} {fuel : Nat} (h : Starts part)
    (hfuel : 2 * (part ++ rest).length ≤ fuel) :
    ∃ f, fuel = f + 1 ∧ 2 * (part ++ rest).length ≤ f + 1 := by
  obtain ⟨c, t, rfl, -⟩ := h
  rw [List.cons_append, List.length_cons] at hfuel ⊢
  exact ⟨fuel - 1, by omega, by omega⟩

theorem readsBack_text (rules : Rules) (s : String) :
    ReadsBack rules (quoted s.toList) (.text s) := by
  have hstarts : Starts (quoted s.toList) :=
    ⟨'"', _, rfl, rfl, by decide, by decide, by decide⟩
  refine ⟨hstarts, ?_⟩
  intro rest fuel hrest hfuel
  obtain ⟨f, rfl, -⟩ := exists_fuel hstarts hfuel
  have hread := readQuoted_quoted s rest
  show readValue rules (f + 1) ('"' :: _) = _
  unfold readValue
  simp only
  rw [show '"' :: _ = quoted s.toList ++ rest from rfl, hread]
  rfl

theorem readValue_of_other (rules : Rules) (fuel : Nat) {c : Char} (t : List Char)
    (h : c ≠ '"' ∧ c ≠ '[' ∧ c ≠ '\x7b') :
    readValue rules (fuel + 1) (c :: t) =
      (readWord? rules (c :: t)).getD (readNumber (c :: t)) := by
  obtain ⟨hquote, hlist, hobject⟩ := h
  unfold readValue
  split
  · rename_i heq
    exact absurd (List.cons.inj heq).1 hquote
  · rename_i heq
    exact absurd (List.cons.inj heq).1 hlist
  · rename_i heq
    exact absurd (List.cons.inj heq).1 hobject
  · rfl

/-! ## Atoms -/

/-- A digit, or a minus sign before one. -/
def Numeric (s : List Char) : Prop := DigitFirst s ∨ ∃ t, s = '-' :: t ∧ DigitFirst t

theorem ne_of_isDigit {c : Char} (h : c.isDigit = true) {d : Char} (hd : d.isDigit = false) :
    c ≠ d := by
  rintro rfl
  rw [h] at hd
  cases hd

theorem Numeric.starts {s : List Char} (h : Numeric s) : Starts s := by
  rcases h with ⟨c, t, rfl, hc⟩ | ⟨t, rfl, -⟩
  · refine ⟨c, t, rfl, ?_, ne_of_isDigit hc rfl, ne_of_isDigit hc rfl, ne_of_isDigit hc rfl⟩
    rw [Bool.eq_false_iff]
    intro hblank
    rw [(not_isDigit_of_isBlank hblank).1] at hc
    cases hc
  · exact ⟨'-', t, rfl, rfl, by decide, by decide, by decide⟩

theorem readWord?_of_numeric (rules : Rules) {s : List Char} (h : Numeric s) :
    readWord? rules s = none := by
  rcases h with ⟨c, t, rfl, hc⟩ | ⟨t, rfl, c, u, rfl, hc⟩
  · have hn : 'n' ≠ c := (ne_of_isDigit hc rfl).symm
    have ht : 't' ≠ c := (ne_of_isDigit hc rfl).symm
    have hf : 'f' ≠ c := (ne_of_isDigit hc rfl).symm
    have hN : 'N' ≠ c := (ne_of_isDigit hc rfl).symm
    have hI : 'I' ≠ c := (ne_of_isDigit hc rfl).symm
    have hminus : '-' ≠ c := (ne_of_isDigit hc rfl).symm
    simp [readWord?, words, numberWords, afterWord?, hn, ht, hf, hN, hI, hminus]
  · have hI : 'I' ≠ c := (ne_of_isDigit hc rfl).symm
    simp [readWord?, words, numberWords, afterWord?, hI]

theorem readsBack_number (rules : Rules) {part : List Char} {v : Value}
    (hnumeric : ∀ rest, Numeric (part ++ rest))
    (hread : ∀ rest, Ends rest → readNumber (part ++ rest) = .ok (v, rest)) :
    ReadsBack rules part v := by
  have hstarts : Starts part := by
    have := (hnumeric []).starts
    rwa [List.append_nil] at this
  refine ⟨hstarts, ?_⟩
  intro rest fuel hrest hfuel
  obtain ⟨f, rfl, -⟩ := exists_fuel hstarts hfuel
  have hword := readWord?_of_numeric rules (hnumeric rest)
  have hnumber := hread rest hrest
  obtain ⟨c, t, hct, hfirst⟩ : ∃ c t, part ++ rest = c :: t ∧
      (c ≠ '"' ∧ c ≠ '[' ∧ c ≠ '\x7b') := by
    rcases hnumeric rest with ⟨c, t, hct, hc⟩ | ⟨t, hct, -⟩
    · exact ⟨c, t, hct, ne_of_isDigit hc rfl, ne_of_isDigit hc rfl, ne_of_isDigit hc rfl⟩
    · exact ⟨'-', t, hct, by decide, by decide, by decide⟩
  rw [hct] at hword hnumber ⊢
  rw [readValue_of_other rules f t hfirst, hword, Option.getD_none, hnumber]

theorem readsBack_int (rules : Rules) (n : Int) : ReadsBack rules (intText n) (.int n) := by
  refine readsBack_number rules ?_ fun rest h => readNumber_intText n h
  intro rest
  cases n with
  | ofNat n => exact .inl ((whole_toDigits n).digitFirst rest)
  | negSucc n => exact .inr ⟨_, rfl, (whole_toDigits (n + 1)).digitFirst rest⟩

theorem readsBack_float (rules : Rules) {x : Double} (hx : x.isFinite = true) :
    ReadsBack rules (x.text nonFiniteWords) (.float x) := by
  refine readsBack_number rules ?_ fun rest h => readNumber_doubleText hx nonFiniteWords h
  intro rest
  cases x with
  | nan => cases hx
  | infinity negative => cases hx
  | finite negative rank =>
    obtain ⟨d, hlaid, -⟩ := laid_magnitudeText rank.isLt negative
    rw [Double.text, Double.signed]
    cases negative with
    | false =>
      rw [if_neg Bool.false_ne_true]
      exact .inl (hlaid.digitFirst rest)
    | true =>
      rw [if_pos rfl]
      exact .inr ⟨_, rfl, hlaid.digitFirst rest⟩

/-- A word that is read before all others. -/
theorem readsBack_word {rules : Rules} {word : List Char} {v : Value} {c : Char} {t : List Char}
    (hword : word = c :: t)
    (hc : isBlank c = false ∧ c ≠ ']' ∧ c ≠ '\x7d' ∧ c ≠ '\uFEFF')
    (hfirst : c ≠ '"' ∧ c ≠ '[' ∧ c ≠ '\x7b')
    (hread : ∀ rest, readWord? rules (word ++ rest) = some (.ok (v, rest))) :
    ReadsBack rules word v := by
  have hstarts : Starts word := ⟨c, t, hword, hc⟩
  refine ⟨hstarts, ?_⟩
  intro rest fuel hrest hfuel
  obtain ⟨f, rfl, -⟩ := exists_fuel hstarts hfuel
  have hr := hread rest
  rw [hword, List.cons_append] at hr ⊢
  rw [readValue_of_other rules f _ hfirst, hr, Option.getD_some]

theorem readsBack_null (rules : Rules) : ReadsBack rules "null".toList .null :=
  readsBack_word (c := 'n') (t := ['u', 'l', 'l']) rfl (by decide) (by decide) fun _ => rfl

theorem readsBack_bool (rules : Rules) (b : Bool) :
    ReadsBack rules (if b then "true".toList else "false".toList) (.bool b) := by
  cases b with
  | true =>
    exact readsBack_word (c := 't') (t := ['r', 'u', 'e']) rfl (by decide) (by decide)
      fun _ => rfl
  | false =>
    exact readsBack_word (c := 'f') (t := ['a', 'l', 's', 'e']) rfl (by decide) (by decide)
      fun _ => rfl

/-- Every atom that JSON has is written to a text that reads back. -/
theorem atomText_readsBack (style : Style) (rules : Rules) {a : Atom} (h : a.offence? = none) :
    ∃ part, atomText style a = .ok part ∧ ReadsBack rules part (.atom a) := by
  cases a with
  | missing => cases h
  | null => exact ⟨_, rfl, readsBack_null rules⟩
  | bool b =>
    refine ⟨_, ?_, readsBack_bool rules b⟩
    cases b <;> rfl
  | int n => exact ⟨_, rfl, readsBack_int rules n⟩
  | float x =>
    have hx : x.isFinite = true := by
      cases hfin : x.isFinite with
      | true => rfl
      | false => simp [Atom.offence?, hfin] at h
    refine ⟨x.text nonFiniteWords, ?_, readsBack_float rules hx⟩
    show doubleText style x = _
    rw [doubleText, hx]
    rfl
  | text s => exact ⟨_, rfl, readsBack_text rules s⟩
  | octets bytes => cases h
  | foreign => cases h

/-! ## Parts between brackets -/

theorem skipBlanks_of_not_blank {c : Char} (hc : isBlank c = false) (t : List Char) :
    skipBlanks (c :: t) = c :: t :=
  skipBlanks_append allBlank_nil hc

/-- A reader of parts that end with a mark: it reads one part, and goes on behind a comma. -/
structure ReadsParts {α : Type} (mark : Char) (Back : List Char → α → Prop)
    (read : Nat → List Char → Except Stop (List α × List Char)) : Prop where
  mark_not_blank : isBlank mark = false
  mark_ends : mark.isDigit = false ∧ mark ≠ '.' ∧ (mark = 'e' || mark = 'E') = false
  starts : ∀ {part : List Char} {a : α}, Back part a → Starts part
  last : ∀ {part rest after : List Char} {a : α} {fuel : Nat}, Back part a → Ends rest →
    2 * (part ++ rest).length ≤ fuel → skipBlanks rest = mark :: after →
      read (fuel + 1) (part ++ rest) = .ok ([a], after)
  next : ∀ {part rest after left : List Char} {a : α} {as : List α} {fuel : Nat}, Back part a →
    Ends rest → 2 * (part ++ rest).length ≤ fuel → skipBlanks rest = ',' :: after →
      read fuel (skipBlanks after) = .ok (as, left) →
        read (fuel + 1) (part ++ rest) = .ok (a :: as, left)

section Parts

variable {α : Type} {mark : Char} {Back : List Char → α → Prop}
  {read : Nat → List Char → Except Stop (List α × List Char)} {style : Style}
  {parts : List (List Char)} {as : List α}

/-- What stands between two parts is skipped up to the second one. -/
theorem separator_eq {inner : List Char} (hs : style.Regular) (hinner : AllBlank inner) :
    ∃ blanks, style.comma ++ inner = ',' :: blanks ∧ AllBlank blanks := by
  obtain ⟨blanks, hcomma, hblanks⟩ := hs.comma
  exact ⟨blanks ++ inner, by rw [hcomma, List.cons_append], hblanks.append hinner⟩

theorem starts_intercalate {sep : List Char} (hr : ReadsParts mark Back read) (hne : parts ≠ [])
    (h : List.Forall₂ Back parts as) : Starts (sep.intercalate parts) := by
  cases h with
  | nil => exact absurd rfl hne
  | cons hp hps =>
    cases hps with
    | nil =>
      rw [List.intercalate_singleton]
      exact hr.starts hp
    | cons hq hqs =>
      rw [List.intercalate_cons_cons, List.append_assoc]
      exact (hr.starts hp).append _

/-- Parts with a comma and blanks between them are read up to the mark at their end. -/
theorem ReadsParts.read_intercalate {blanks close : List Char} (hr : ReadsParts mark Back read)
    (hblanks : AllBlank blanks) (hclose : AllBlank close) (rest : List Char)
    (h : List.Forall₂ Back parts as) (hne : parts ≠ []) :
    ∀ fuel, 2 * ((',' :: blanks).intercalate parts ++ (close ++ mark :: rest)).length + 1 ≤ fuel →
      read fuel ((',' :: blanks).intercalate parts ++ (close ++ mark :: rest)) =
        .ok (as, rest) := by
  induction h with
  | nil => exact absurd rfl hne
  | @cons p a ps as hp hps ih =>
    intro fuel hfuel
    obtain ⟨f, rfl⟩ : ∃ f, fuel = f + 1 := ⟨fuel - 1, by omega⟩
    cases hps with
    | nil =>
      rw [List.intercalate_singleton] at hfuel ⊢
      exact hr.last hp (ends_blanks hclose hr.mark_ends rest) (by omega)
        (skipBlanks_append hclose hr.mark_not_blank)
    | @cons q b qs bs hq hqs =>
      have hne' : q :: qs ≠ [] := List.cons_ne_nil q qs
      have hstarts : Starts ((',' :: blanks).intercalate (q :: qs) ++ (close ++ mark :: rest)) :=
        (starts_intercalate hr hne' (.cons hq hqs)).append _
      have htext : (',' :: blanks).intercalate (p :: q :: qs) ++ (close ++ mark :: rest) =
          p ++ (',' :: (blanks ++
            ((',' :: blanks).intercalate (q :: qs) ++ (close ++ mark :: rest)))) := by
        rw [List.intercalate_cons_of_ne_nil hne']
        simp only [List.append_assoc, List.cons_append]
      rw [htext] at hfuel ⊢
      generalize (',' :: blanks).intercalate (q :: qs) ++ (close ++ mark :: rest) = more
        at hfuel hstarts ih ⊢
      have hlength : 2 * more.length + 1 ≤ f := by
        simp only [List.length_append, List.length_cons] at hfuel
        omega
      have hmore := ih hne' f hlength
      rw [← hstarts.skipBlanks hblanks] at hmore
      exact hr.next hp (ends_of_cons (by decide) _) (by omega) (skipBlanks_of_not_blank rfl _) hmore

theorem starts_enclosed {first : Char} (hfirst : isBlank first = false ∧ first ≠ ']' ∧
    first ≠ '\x7d' ∧ first ≠ '\uFEFF') (style : Style) (depth : Nat) (last : Char)
    (parts : List (List Char)) : Starts (enclosed style depth first last parts) := by
  unfold enclosed
  split <;> exact ⟨first, _, rfl, hfirst⟩

/-- Behind an opening bracket and blanks there are parts, which are read up to the closing one. -/
theorem ReadsParts.read_enclosed (hr : ReadsParts mark Back read) (hs : style.Regular) (depth : Nat)
    (first : Char) (rest : List Char) (h : List.Forall₂ Back parts as) (hne : parts ≠ [])
    {fuel : Nat}
    (hfuel : 2 * (enclosed style depth first mark parts ++ rest).length ≤ fuel + 1) :
    ∃ t, enclosed style depth first mark parts ++ rest = first :: t ∧ Starts (skipBlanks t) ∧
      read fuel (skipBlanks t) = .ok (as, rest) := by
  have hinner := allBlank_newline style (depth + 1)
  have hclose := allBlank_newline style depth
  obtain ⟨blanks, hsep, hblanks⟩ := separator_eq hs hinner
  have htext : enclosed style depth first mark parts ++ rest =
      first :: (style.newline (depth + 1) ++
        ((',' :: blanks).intercalate parts ++ (style.newline depth ++ mark :: rest))) := by
    unfold enclosed
    rw [if_neg (by simpa using hne), ← hsep]
    simp
  have hstarts :
      Starts ((',' :: blanks).intercalate parts ++ (style.newline depth ++ mark :: rest)) :=
    (starts_intercalate hr hne h).append _
  rw [htext] at hfuel
  refine ⟨_, htext, ?_⟩
  rw [hstarts.skipBlanks hinner]
  refine ⟨hstarts, hr.read_intercalate hblanks hclose rest h hne fuel ?_⟩
  simp only [List.length_cons, List.length_append] at hfuel ⊢
  omega

end Parts

/-! ## Lists -/

theorem readItems_readsParts (rules : Rules) :
    ReadsParts ']' (ReadsBack rules) (readItems rules) where
  mark_not_blank := rfl
  mark_ends := by decide
  starts hp := hp.starts
  last hp hrest hfuel h := by
    simp only [readItems, hp.back _ _ hrest hfuel, bind, Except.bind, h]
    rfl
  next hp hrest hfuel h hmore := by
    simp only [readItems, hp.back _ _ hrest hfuel, bind, Except.bind, h, hmore]
    rfl

theorem readsBack_list {style : Style} (hs : style.Regular) (depth : Nat) {rules : Rules}
    {parts : List (List Char)} {items : List Value}
    (h : List.Forall₂ (ReadsBack rules) parts items) :
    ReadsBack rules (enclosed style depth '[' ']' parts) (.list items) := by
  have hstarts : Starts (enclosed style depth '[' ']' parts) :=
    starts_enclosed (by decide) style depth ']' parts
  refine ⟨hstarts, ?_⟩
  intro rest fuel _ hfuel
  obtain ⟨f, rfl, hf⟩ := exists_fuel hstarts hfuel
  by_cases hne : parts = []
  · subst hne
    cases h
    show readValue rules (f + 1) ('[' :: ']' :: rest) = _
    simp only [readValue, skipBlanks_of_not_blank (c := ']') rfl]
  · obtain ⟨t, htext, ⟨c, u, hfirst, -, hc, -⟩, hread⟩ :=
      (readItems_readsParts rules).read_enclosed hs depth '[' rest h hne hf
    rw [htext]
    unfold readValue
    simp only
    split
    · rename_i heq
      rw [hfirst] at heq
      exact absurd (List.cons.inj heq).1 hc
    · rw [hread]
      rfl

/-! ## Objects -/

/-- A text that is read as a field: its name, a colon and its value. -/
def FieldBack (rules : Rules) (colon : List Char) (part : List Char) (field : Key × Value) : Prop :=
  ∃ name text, field.1 = .text name ∧ part = quoted name.toList ++ colon ++ text ∧
    ReadsBack rules text field.2

theorem FieldBack.starts {rules : Rules} {colon part : List Char} {field : Key × Value}
    (h : FieldBack rules colon part field) : Starts part := by
  obtain ⟨name, text, -, rfl, -⟩ := h
  rw [List.append_assoc]
  exact (readsBack_text rules name).starts.append _

/-- The name of a field is read up to the colon, and its value up to the next mark. -/
theorem FieldBack.read {style : Style} (hs : style.Regular) {rules : Rules} {part : List Char}
    {field : Key × Value} (h : FieldBack rules style.colon part field) {rest : List Char}
    (hrest : Ends rest) {fuel : Nat} (hfuel : 2 * (part ++ rest).length ≤ fuel) :
    ∃ name middle after, field = (.text name, field.2) ∧
      readQuoted (part ++ rest) = .ok (name, middle) ∧ skipBlanks middle = ':' :: after ∧
      readValue rules fuel (skipBlanks after) = .ok (field.2, rest) := by
  obtain ⟨name, text, hname, rfl, htext⟩ := h
  obtain ⟨blanks, hcolon, hblanks⟩ := hs.colon
  refine ⟨name, style.colon ++ (text ++ rest), blanks ++ (text ++ rest), ?_, ?_, ?_, ?_⟩
  · rw [← hname]
  · rw [List.append_assoc, List.append_assoc, readQuoted_quoted]
  · rw [hcolon, List.cons_append, skipBlanks_of_not_blank rfl]
  · rw [(htext.starts.append rest).skipBlanks hblanks]
    refine htext.back rest fuel hrest ?_
    simp only [List.length_append] at hfuel ⊢
    omega

theorem readFields_readsParts {style : Style} (hs : style.Regular) (rules : Rules) :
    ReadsParts '\x7d' (FieldBack rules style.colon) (readFields rules) where
  mark_not_blank := rfl
  mark_ends := by decide
  starts hp := hp.starts
  last hp hrest hfuel h := by
    obtain ⟨name, middle, after, hfield, hname, hcolon, hv⟩ := hp.read hs hrest hfuel
    rw [hfield]
    simp only [readFields, hname, bind, Except.bind, hcolon, hv, h]
    rfl
  next hp hrest hfuel h hmore := by
    obtain ⟨name, middle, after, hfield, hname, hcolon, hv⟩ := hp.read hs hrest hfuel
    rw [hfield]
    simp only [readFields, hname, bind, Except.bind, hcolon, hv, h, hmore]
    rfl

theorem readsBack_object {style : Style} (hs : style.Regular) (depth : Nat) {rules : Rules}
    {parts : List (List Char)} {fields : Fields} (hdistinct : Fields.Distinct fields)
    (h : List.Forall₂ (FieldBack rules style.colon) parts fields) :
    ReadsBack rules (enclosed style depth '\x7b' '\x7d' parts) (.object fields) := by
  have hstarts : Starts (enclosed style depth '\x7b' '\x7d' parts) :=
    starts_enclosed (by decide) style depth '\x7d' parts
  refine ⟨hstarts, ?_⟩
  intro rest fuel _ hfuel
  obtain ⟨f, rfl, hf⟩ := exists_fuel hstarts hfuel
  by_cases hne : parts = []
  · subst hne
    cases h
    show readValue rules (f + 1) ('\x7b' :: '\x7d' :: rest) = _
    simp only [readValue, skipBlanks_of_not_blank (c := '\x7d') rfl]
  · obtain ⟨t, htext, ⟨c, u, hfirst, -, -, hc, -⟩, hread⟩ :=
      (readFields_readsParts hs rules).read_enclosed hs depth '\x7b' rest h hne hf
    rw [htext]
    unfold readValue
    simp only
    split
    · rename_i heq
      rw [hfirst] at heq
      exact absurd (List.cons.inj heq).1 hc
    · rw [hread]
      show Except.ok (Value.object (Fields.ofPairs fields), rest) = _
      rw [Fields.ofPairs_of_distinct hdistinct]

/-! ## Values -/

section Write

variable {style : Style} {rules : Rules}

theorem writeItems_readsBack {depth : Nat} {items : List Value}
    (h : ∀ v ∈ items, ∃ part, write style depth v = .ok part ∧ ReadsBack rules part v) :
    ∃ parts, writeItems style depth items = .ok parts ∧
      List.Forall₂ (ReadsBack rules) parts items := by
  induction items with
  | nil => exact ⟨[], rfl, .nil⟩
  | cons v rest ih =>
    obtain ⟨part, hpart, hback⟩ := h v (List.mem_cons_self ..)
    obtain ⟨parts, hparts, hall⟩ := ih fun w hw => h w (List.mem_cons_of_mem _ hw)
    refine ⟨part :: parts, ?_, .cons hback hall⟩
    simp only [writeItems, hpart, hparts, bind, Except.bind]
    rfl

theorem writeFields_readsBack {depth : Nat} {fields : Fields}
    (hnamed : ∀ f ∈ fields, ∃ name, f.1 = .text name)
    (h : ∀ f ∈ fields, ∃ part, write style depth f.2 = .ok part ∧ ReadsBack rules part f.2) :
    ∃ parts, writeFields style depth fields = .ok parts ∧
      List.Forall₂ (FieldBack rules style.colon) parts fields := by
  induction fields with
  | nil => exact ⟨[], rfl, .nil⟩
  | cons f rest ih =>
    obtain ⟨k, v⟩ := f
    obtain ⟨name, hname⟩ := hnamed (k, v) (List.mem_cons_self ..)
    obtain ⟨part, hpart, hback⟩ := h (k, v) (List.mem_cons_self ..)
    obtain ⟨parts, hparts, hall⟩ := ih (fun g hg => hnamed g (List.mem_cons_of_mem _ hg))
      fun g hg => h g (List.mem_cons_of_mem _ hg)
    obtain rfl : k = .text name := hname
    refine ⟨(quoted name.toList ++ style.colon ++ part) :: parts, ?_,
      .cons ⟨name, part, rfl, rfl, hback⟩ hall⟩
    simp only [writeFields, nameText, hpart, hparts, bind, Except.bind]
    rfl

/-- A value is written to a text that reads back if its atoms are. -/
theorem write_readsBack (hs : style.Regular) {p : Atom → Prop}
    (hatom : ∀ a, p a → ∃ part, atomText style a = .ok part ∧ ReadsBack rules part (.atom a))
    {v : Value} (hv : v.MadeOf p) :
    ∀ depth, ∃ part, write style depth v = .ok part ∧ ReadsBack rules part v := by
  induction hv with
  | atom h =>
    intro depth
    exact hatom _ h
  | list _ ih =>
    intro depth
    obtain ⟨parts, hparts, hall⟩ := writeItems_readsBack fun v hv => ih v hv (depth + 1)
    refine ⟨_, ?_, readsBack_list hs depth hall⟩
    rw [write, hparts]
    rfl
  | object hdistinct hnamed _ ih =>
    intro depth
    obtain ⟨parts, hparts, hall⟩ := writeFields_readsBack hnamed fun f hf => ih f hf (depth + 1)
    refine ⟨_, ?_, readsBack_object hs depth hdistinct hall⟩
    rw [write, hparts]
    rfl

/-- Every storable value is written to a text that reads back. -/
theorem write_storable_readsBack (hs : style.Regular) (rules : Rules) {v : Value} (hv : v.Storable)
    (depth : Nat) : ∃ part, write style depth v = .ok part ∧ ReadsBack rules part v :=
  write_readsBack hs (fun _ => atomText_readsBack style rules)
    ((Value.storable_iff_madeOf v).mp hv) depth

theorem ReadsBack.valueOfChars {part : List Char} {v : Value} (h : ReadsBack rules part v) :
    valueOfChars rules part = .ok v := by
  have hskip : skipBlanks part = part := h.starts.skipBlanks allBlank_nil
  have hread := h.back [] (2 * part.length + 2) ends_nil (by simp)
  rw [List.append_nil] at hread
  unfold Json.valueOfChars readAll
  rw [hskip]
  simp only [hread, bind, Except.bind]
  rfl

theorem ReadsBack.valueOfText {part : List Char} {v : Value} (h : ReadsBack rules part v) :
    valueOfText rules (String.ofList part) = .ok v := by
  have hread := h.valueOfChars
  obtain ⟨c, t, rfl, -, -, -, hc⟩ := h.starts
  unfold Json.valueOfText
  rw [String.toList_ofList]
  simp only
  split
  · rename_i heq
    exact absurd (List.cons.inj heq).1 hc
  · exact hread

/-- Octets that are the text of a storable value are read as that value. -/
theorem valueOfOctets_of_write (hs : style.Regular) {v : Value} (hv : v.Storable) (rules : Rules)
    {octets : List UInt8} {part : List Char} (hwritten : write style 0 v = .ok part)
    (hoctets : Text.decodeDetected octets = .ok part) : valueOfOctets rules octets = .ok v := by
  obtain ⟨part', hpart, hback⟩ := write_storable_readsBack hs rules hv 0
  obtain rfl : part = part' := Except.ok.inj (hwritten.symm.trans hpart)
  rw [valueOfOctets, hoctets]
  exact hback.valueOfChars

/-- The text of a storable value is read as that value. -/
theorem valueOfText_text (hs : style.Regular) {v : Value} (hv : v.Storable) (rules : Rules) :
    ∃ s, text style v = .ok s ∧ valueOfText rules s = .ok v := by
  obtain ⟨part, hpart, hback⟩ := write_storable_readsBack hs rules hv 0
  refine ⟨String.ofList part, ?_, hback.valueOfText⟩
  rw [text, hpart]
  rfl

end Write

/-! ## Numbers that are not finite -/

theorem regular_spaced : Style.spaced.Regular := by
  refine ⟨⟨[' '], rfl, ?_⟩, ⟨[' '], rfl, ?_⟩⟩
  · exact List.forall_mem_singleton.mpr rfl
  · exact List.forall_mem_singleton.mpr rfl

/-- Words for numbers that are not finite are read back where they are read at all. -/
theorem readsBack_nonFinite {x : Double} (hx : x.isFinite = false) :
    ReadsBack .lenient (x.text nonFiniteWords) (.float x) := by
  cases x with
  | nan =>
    exact readsBack_word (c := 'N') (t := ['a', 'N']) rfl (by decide) (by decide) fun _ => rfl
  | infinity negative =>
    cases negative with
    | false =>
      exact readsBack_word (c := 'I') (t := "nfinity".toList) rfl (by decide) (by decide)
        fun _ => rfl
    | true =>
      exact readsBack_word (c := '-') (t := "Infinity".toList) rfl (by decide) (by decide)
        fun _ => rfl
  | finite negative rank => cases hx

/-- The text of a value is read as that value where words for numbers are written and read. -/
theorem valueOfText_text_spelled {style : Style} (hs : style.Regular)
    (hwords : style.allowsNonFinite = true) {v : Value} (hv : v.Spelled) :
    ∃ s, text style v = .ok s ∧ valueOfText .lenient s = .ok v := by
  have hatom : ∀ a : Atom, (a.offence? = none ∨ ∃ x, a = .float x) →
      ∃ part, atomText style a = .ok part ∧ ReadsBack .lenient part (.atom a) := by
    rintro a (ha | ⟨x, rfl⟩)
    · exact atomText_readsBack style .lenient ha
    · refine ⟨x.text nonFiniteWords, ?_, ?_⟩
      · show doubleText style x = _
        rw [doubleText, hwords, Bool.or_true, if_pos rfl]
      · cases hx : x.isFinite with
        | true => exact readsBack_float .lenient hx
        | false => exact readsBack_nonFinite hx
  obtain ⟨part, hpart, hback⟩ := write_readsBack hs hatom hv 0
  refine ⟨String.ofList part, ?_, hback.valueOfText⟩
  rw [text, hpart]
  rfl

end PageBuilder.Json
