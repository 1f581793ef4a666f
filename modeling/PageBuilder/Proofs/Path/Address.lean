import PageBuilder.Issue
import PageBuilder.Path
import PageBuilder.Proofs.Text.Digits
import PageBuilder.Proofs.Value.SameJson

/-!
Addresses in a value, and the paths that they are written as.

* `Leads`: the steps of an address lead from a value to a part of it;
* `Spells`: a path writes an address, each step behind a dot, in brackets, or in brackets and
  quotes;
* `steps_of_spells`: the steps of a path that writes an address are those of the address;
* `follow_of_leads`: the steps of an address are followed to where it leads;
* `lookup_of_spells`: every part of a value is found by every path that writes its address.
-/

namespace PageBuilder.Path

/-! ## Addresses -/

/-- A step down: to a field of an object, or to an item of a list. -/
inductive Step where
  | field (name : String)
  | item (index : Nat)

/-- A step as it is written: the place of an item is told in decimal digits. -/
def Step.chars : Step → List Char
  | field name => name.toList
  | item index => Nat.toDigits 10 index

def Step.text (step : Step) : String := String.ofList step.chars

/-- Some steps lead from a value to a part of it. -/
inductive Leads : Value → List Step → Value → Prop where
  | here (v : Value) : Leads v [] v
  | field {fields : Fields} {name : String} {v w : Value} {onward : List Step}
      (found : Fields.get? fields name = some v) (leads : Leads v onward w) :
      Leads (.object fields) (.field name :: onward) w
  | item {u v w : Value} {items : List Value} {index : Nat} {onward : List Step}
      (members : u.items? = some items) (found : items[index]? = some v)
      (leads : Leads v onward w) : Leads u (.item index :: onward) w

/-! ## Spelling -/

/-- A name that can be written in a path: it is not empty, has no blanks and no quotes at its ends,
and no dots and brackets at all. -/
structure PlainName (s : List Char) : Prop where
  ne_nil : s ≠ []
  stripped : Text.trim s = s
  unmarked : ∀ c ∈ s, c ≠ '.' ∧ c ≠ '[' ∧ c ≠ ']'
  unquoted : Text.Trimmed isQuote s

/-- The ways to write one step. -/
inductive Spelling where
  | dotted
  | bracketed
  | singleQuoted
  | doubleQuoted

def Spelling.write : Spelling → List Char → List Char
  | dotted, s => '.' :: s
  | bracketed, s => '[' :: (s ++ [']'])
  | singleQuoted, s => '[' :: ('\'' :: (s ++ ['\'']) ++ [']'])
  | doubleQuoted, s => '[' :: ('"' :: (s ++ ['"']) ++ [']'])

/-- An address with each step in some spelling. -/
def written (address : List (Spelling × Step)) : List Char :=
  address.flatMap fun a => a.1.write a.2.chars

/-- A path writes an address. A dot at the start may be left out. -/
def Spells (path : String) (address : List (Spelling × Step)) : Prop :=
  path.toList = written address ∨ '.' :: path.toList = written address

/-! ## Names and digits -/

theorem isQuote_of_isDigit {c : Char} (h : c.isDigit = true) : isQuote c = false := by
  rw [isQuote, Bool.or_eq_false_iff, decide_eq_false_iff_not, decide_eq_false_iff_not]
  refine ⟨?_, ?_⟩
  · rintro rfl
    exact absurd h (by decide)
  · rintro rfl
    exact absurd h (by decide)

theorem plainName_toDigits (n : Nat) : PlainName (Nat.toDigits 10 n) := by
  have hall : ∀ c ∈ Nat.toDigits 10 n, c.isDigit = true :=
    fun _ hc => Nat.isDigit_of_mem_toDigits (by decide) (by decide) hc
  refine ⟨Nat.toDigits_ne_nil, ?_, fun c hc => ?_, ?_⟩
  · refine Text.trimBoth_eq_self (Text.trimmed_of_forall fun c hc => ?_)
    exact Text.isBlank_of_digit (Text.isDigit_of_isDigit (hall c hc))
  · have hdigit := hall c hc
    refine ⟨?_, ?_, ?_⟩ <;>
    · rintro rfl
      exact absurd hdigit (by decide)
  · exact Text.trimmed_of_forall fun c hc => isQuote_of_isDigit (hall c hc)

/-- What is read from brackets is the name in them. -/
theorem bare_of_plainName {s : List Char} (h : PlainName s) : bare s = s := by
  rw [bare, h.stripped, Text.trimBoth_eq_self h.unquoted]

theorem bare_enclosed {s : List Char} (h : PlainName s) {quote : Char}
    (hquote : isQuote quote = true) (hblank : Text.isBlank quote = false) :
    bare (quote :: (s ++ [quote])) = s := by
  have htrim : Text.trim (quote :: (s ++ [quote])) = quote :: (s ++ [quote]) :=
    Text.trimBoth_eq_self (Text.trimmed_enclosed hblank hblank)
  rw [bare, htrim, Text.trimBoth_enclosed hquote hquote h.ne_nil h.unquoted]

/-! ## Splitting -/

theorem unbracket_outside {c : Char} (h : c ≠ '[') (rest : List Char) :
    unbracket none (c :: rest) = c :: unbracket none rest := by
  rw [unbracket]
  exact h

theorem unbracket_outside_append {s : List Char} (h : ∀ c ∈ s, c ≠ '[') (rest : List Char) :
    unbracket none (s ++ rest) = s ++ unbracket none rest := by
  induction s with
  | nil => rfl
  | cons c s ih =>
    rw [List.cons_append, unbracket_outside (h c (List.mem_cons_self ..)),
      ih fun d hd => h d (List.mem_cons_of_mem _ hd), List.cons_append]

theorem unbracket_inside {c : Char} (h : c ≠ '[' ∧ c ≠ ']') (inner rest : List Char) :
    unbracket (some inner) (c :: rest) = unbracket (some (inner ++ [c])) rest := by
  rw [unbracket]
  · exact h.1
  · exact h.2

theorem unbracket_inside_append {s : List Char} (h : ∀ c ∈ s, c ≠ '[' ∧ c ≠ ']')
    (inner rest : List Char) :
    unbracket (some inner) (s ++ rest) = unbracket (some (inner ++ s)) rest := by
  induction s generalizing inner with
  | nil => rw [List.nil_append, List.append_nil]
  | cons c s ih =>
    rw [List.cons_append, unbracket_inside (h c (List.mem_cons_self ..)),
      ih (fun d hd => h d (List.mem_cons_of_mem _ hd)), List.append_assoc, List.singleton_append]

/-- A step in brackets is read as a dotted one. -/
theorem unbracket_bracketed {s : List Char} (h : ∀ c ∈ s, c ≠ '[' ∧ c ≠ ']') (rest : List Char) :
    unbracket none ('[' :: (s ++ [']']) ++ rest) = '.' :: (bare s ++ unbracket none rest) := by
  have hopen : unbracket none ('[' :: (s ++ [']']) ++ rest) =
      unbracket (some []) (s ++ ']' :: rest) := by
    rw [List.cons_append, List.append_assoc, List.singleton_append]
    rfl
  rw [hopen, unbracket_inside_append h, List.nil_append]
  rfl

theorem unbracket_write {s : List Char} (h : PlainName s) (spelling : Spelling)
    (rest : List Char) :
    unbracket none (spelling.write s ++ rest) = '.' :: (s ++ unbracket none rest) := by
  have hquoted : ∀ quote, isQuote quote = true → Text.isBlank quote = false →
      quote ≠ '[' ∧ quote ≠ ']' →
      unbracket none ('[' :: (quote :: (s ++ [quote]) ++ [']']) ++ rest) =
        '.' :: (s ++ unbracket none rest) := by
    intro quote hquote hblank hne
    rw [unbracket_bracketed, bare_enclosed h hquote hblank]
    intro c hc
    rw [List.mem_cons, List.mem_append, List.mem_singleton] at hc
    rcases hc with rfl | hc | rfl
    · exact hne
    · exact (h.unmarked c hc).2
    · exact hne
  cases spelling with
  | dotted =>
    rw [Spelling.write, List.cons_append, unbracket_outside (by decide),
      unbracket_outside_append fun c hc => (h.unmarked c hc).2.1]
  | bracketed =>
    rw [Spelling.write, unbracket_bracketed fun c hc => (h.unmarked c hc).2, bare_of_plainName h]
  | singleQuoted => exact hquoted '\'' (by decide) (by decide) (by decide)
  | doubleQuoted => exact hquoted '"' (by decide) (by decide) (by decide)

theorem unbracket_written {address : List (Spelling × Step)}
    (h : ∀ a ∈ address, PlainName a.2.chars) :
    unbracket none (written address) =
      (address.map fun a => a.2.chars).flatMap fun s => '.' :: s := by
  induction address with
  | nil => rfl
  | cons a rest ih =>
    rw [written, List.flatMap_cons, unbracket_write (h a (List.mem_cons_self ..)), ← written,
      ih fun b hb => h b (List.mem_cons_of_mem _ hb), List.map_cons, List.flatMap_cons,
      List.cons_append]

/-- A dot at the start of a path makes no step. -/
theorem steps_cons_dot (s : List Char) :
    steps (String.ofList ('.' :: s)) = steps (String.ofList s) := by
  have hparts : Text.parts '.' (unbracket none ('.' :: s)) =
      [] :: Text.parts '.' (unbracket none s) := by
    rw [unbracket_outside (by decide), Text.parts, if_pos rfl]
  simp only [steps, String.toList_ofList, hparts, List.map_cons]
  rfl

theorem steps_written {address : List (Spelling × Step)}
    (h : ∀ a ∈ address, PlainName a.2.chars) :
    steps (String.ofList (written address)) = address.map fun a => a.2.text := by
  have hparts : Text.parts '.' (unbracket none (written address)) =
      [] :: address.map fun a => a.2.chars := by
    rw [unbracket_written h, Text.parts_marked]
    intro s hs hdot
    obtain ⟨a, ha, rfl⟩ := List.mem_map.mp hs
    exact ((h a ha).unmarked '.' hdot).1 rfl
  have htrim : (address.map fun a => a.2.chars).map Text.trim = address.map fun a => a.2.chars := by
    rw [List.map_map]
    exact List.map_congr_left fun a ha => (h a ha).stripped
  have hfilter : (address.map fun a => a.2.chars).filter (fun s => !s.isEmpty) =
      address.map fun a => a.2.chars := by
    rw [List.filter_eq_self]
    intro s hs
    obtain ⟨a, ha, rfl⟩ := List.mem_map.mp hs
    simpa using (h a ha).ne_nil
  have hempty : Text.trim [] = [] := rfl
  rw [steps, String.toList_ofList, hparts, List.map_cons, htrim, hempty,
    List.filter_cons_of_neg (by decide), hfilter, List.map_map]
  rfl

/-- The steps of a path that writes an address are those of the address. -/
theorem steps_of_spells {path : String} {address : List (Spelling × Step)}
    (h : ∀ a ∈ address, PlainName a.2.chars) (hpath : Spells path address) :
    steps path = address.map fun a => a.2.text := by
  rw [← steps_written h]
  rcases hpath with hpath | hpath
  · rw [← hpath, String.ofList_toList]
  · rw [← hpath, steps_cons_dot, String.ofList_toList]

/-! ## Following -/

theorem literal?_text (v : Value) (path : String) : literal? v (.text path) = v.get? path := by
  cases v <;> rfl

theorem item_of_getElem? {items : List Value} {index : Nat} {v : Value}
    (h : items[index]? = some v) : item items (Step.item index).text = .ok v := by
  have hall : (Nat.toDigits 10 index).all Text.isDigit = true := by
    rw [List.all_eq_true]
    intro c hc
    exact Text.isDigit_of_isDigit (Nat.isDigit_of_mem_toDigits (by decide) (by decide) hc)
  have hnumeral : numeralOfText (Step.item index).text = .ok (index : Int) := by
    simp only [numeralOfText, numeral, Step.text, Step.chars, String.toList_ofList,
      Text.Numeral.integer?_toDigits]
  rw [item, Step.text, String.toList_ofList, Step.chars, if_pos hall, ← Step.chars, ← Step.text,
    hnumeral]
  simp [Except.map, h]

theorem down_of_items? {v : Value} {items : List Value} (h : v.items? = some items)
    (step : String) : down v step = item items step := by
  rcases Value.items?_eq_some_iff.mp h with rfl | rfl <;> rfl

/-- Nothing is below a value that is missing. -/
theorem leads_missing {onward : List Step} {w : Value} (h : Leads .missing onward w) :
    onward = [] ∧ w = .missing := by
  cases h with
  | here => exact ⟨rfl, rfl⟩
  | item members _ _ => cases members

theorem follow_cons_of_down {u v w : Value} {step : Step} {onward : List Step}
    (hdown : down u step.text = .ok v) (hleads : Leads v onward w)
    (ih : follow v (onward.map Step.text) = .ok w) :
    follow u ((step :: onward).map Step.text) = .ok w := by
  rw [List.map_cons, follow, hdown]
  show (if v.isMissing = true then _ else _) = _
  split
  · rename_i hmissing
    obtain rfl := Value.eq_missing hmissing
    rw [(leads_missing hleads).2]
    rfl
  · exact ih

/-- The steps of an address are followed to where it leads. -/
theorem follow_of_leads {v w : Value} {address : List Step} (h : Leads v address w) :
    follow v (address.map Step.text) = .ok w := by
  induction h with
  | here v => rfl
  | @field fields name v w onward hfound hleads ih =>
    have hdown : down (.object fields) (Step.field name).text = .ok v := by
      simp only [down, Step.text, Step.chars, String.ofList_toList, hfound, Option.getD_some]
    exact follow_cons_of_down hdown hleads ih
  | item hmembers hfound hleads ih =>
    have hdown := (down_of_items? hmembers _).trans (item_of_getElem? hfound)
    exact follow_cons_of_down hdown hleads ih

/-- Every part of a value is found by every path that writes its address, whatever spelling each
step has, unless the whole path is the name of a field. -/
theorem lookup_of_spells {doc v : Value} {address : List (Spelling × Step)} {path : String}
    (hne : address ≠ []) (hleads : Leads doc (address.map Prod.snd) v)
    (hplain : ∀ name, .field name ∈ address.map Prod.snd → PlainName name.toList)
    (hpath : Spells path address) :
    steps path = address.map (fun a => a.2.text) ∧
      lookup doc path = .ok ((doc.get? path).getD v) := by
  have hchars : ∀ a ∈ address, PlainName a.2.chars := by
    intro a ha
    cases hstep : a.2 with
    | field name => exact hplain name (hstep ▸ List.mem_map_of_mem ha)
    | item index => exact plainName_toDigits index
  have hsteps := steps_of_spells hchars hpath
  refine ⟨hsteps, ?_⟩
  have hfollow : descend doc (steps path) = .ok v := by
    have hsome := follow_of_leads hleads
    rw [List.map_map] at hsome
    rw [hsteps, descend]
    · exact hsome
    · exact fun hnil => hne (List.map_eq_nil_iff.mp hnil)
  rw [lookup, literal?_text]
  cases doc.get? path with
  | none => exact hfollow
  | some found => rfl

/-- Names with a blank, a quote and nothing but a digit in them, on the way through both kinds of
lists. -/
def mixedNames : Value := .ofFields [
  ("b", .null),
  ("a b", .ofFields [("x'y", .tuple [.null, .ofFields [("7", .list [.bool false, .int 5])]])])]

def mixedAddress : List (Spelling × Step) := [
  (.bracketed, .field "a b"), (.doubleQuoted, .field "x'y"), (.dotted, .item 1),
  (.singleQuoted, .field "7"), (.bracketed, .item 1)]

theorem leads_mixedNames : Leads mixedNames (mixedAddress.map Prod.snd) (.int 5) :=
  .field rfl (.field rfl (.item rfl rfl (.field rfl (.item rfl rfl (.here _)))))

theorem plainName_mixedAddress :
    ∀ name, .field name ∈ mixedAddress.map Prod.snd → PlainName name.toList := by
  have hblank : PlainName "a b".toList :=
    ⟨by decide, by decide, by simp, ⟨by simp [isQuote], by simp [isQuote]⟩⟩
  have hquote : PlainName "x'y".toList :=
    ⟨by decide, by decide, by simp, ⟨by simp [isQuote], by simp [isQuote]⟩⟩
  have hdigit : PlainName "7".toList :=
    ⟨by decide, by decide, by simp, ⟨by simp [isQuote], by simp [isQuote]⟩⟩
  intro name hname
  simp only [mixedAddress, List.map_cons, List.map_nil, List.mem_cons, Step.field.injEq,
    reduceCtorEq, List.not_mem_nil, or_false, false_or] at hname
  rcases hname with rfl | rfl | rfl
  · exact hblank
  · exact hquote
  · exact hdigit

theorem lookup_of_spells_mixed :
    mixedAddress ≠ [] ∧ Leads mixedNames (mixedAddress.map Prod.snd) (.int 5) ∧
      (∀ name, .field name ∈ mixedAddress.map Prod.snd → PlainName name.toList) ∧
      Spells "[a b][\"x'y\"].1['7'][1]" mixedAddress ∧
      steps "[a b][\"x'y\"].1['7'][1]" = ["a b", "x'y", "1", "7", "1"] ∧
      Path.lookup mixedNames "[a b][\"x'y\"].1['7'][1]" = .ok (.int 5) := by
  have hne : mixedAddress ≠ [] := by simp [mixedAddress]
  have hspells : Spells "[a b][\"x'y\"].1['7'][1]" mixedAddress := .inl (by decide)
  have hall := lookup_of_spells hne leads_mixedNames plainName_mixedAddress hspells
  exact ⟨hne, leads_mixedNames, plainName_mixedAddress, hspells, hall.1, hall.2⟩

end PageBuilder.Path
