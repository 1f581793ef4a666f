import PageBuilder.Document.Within
import PageBuilder.Proofs.Document.Import
import PageBuilder.Proofs.Json.Within

/-!
Loading a document within limits.

* `Check.overrun?_of_modest`: a tree that nests no deeper than all limits, and has no integer of too
  many digits, is checked to the end;
* `Hindered`: what can be in the way of loading the document in a source;
* `not_hindered`: there is nothing in the way of a modest source;
* `acceptWithin_eq`: where nothing is in the way, loading is as without limits;
* `acceptWithin_spec`: what comes of every source, and what becomes of the store;
* `acceptWithin_unanswered`: a text and a document that there is no answer for.
-/

namespace PageBuilder

/-- A value that nests no deeper than any work on it can go, and whose integers all have texts. -/
structure Value.Modest (limits : Limits) (v : Value) : Prop where
  checking : v.fits limits.checking = true
  visiting : v.fits limits.visiting = true
  showing : v.fits limits.showing = true
  copying : v.fits limits.copying = true
  short : ∀ n, v.HoldsInt n → isShort limits.digits n = true

section Texts

variable {limits : Limits} {v : Value}

/-- What the message of a refusal shows is a part of the action. -/
theorem Action.overrun?_of_text (h : v.overrun? limits.digits limits.showing = none) :
    Action.overrun? limits v = none := by
  rw [Action.overrun?, Option.bind_eq_none_iff]
  intro w hw
  unfold Action.shown? at hw
  split at hw
  · cases hw
    exact Value.overrun?_field h "type"
  · cases hw
    exact Value.overrun?_field (Value.overrun?_field h "config") "method"
  · cases hw

theorem Plan.overrun?_of_text (h : v.overrun? limits.digits limits.showing = none) :
    Plan.overrun? limits v = none := by
  unfold Plan.overrun?
  split
  · rw [List.findSome?_eq_none_iff]
    exact fun raw hraw => Action.overrun?_of_text (Value.overrun?_item h rfl hraw)
  · rfl

namespace Check

theorem eventsOverrun?_of_text (h : v.overrun? limits.digits limits.showing = none) :
    eventsOverrun? limits v = none := by
  unfold eventsOverrun?
  split
  · rw [List.findSome?_eq_none_iff]
    rintro ⟨k, actions⟩ hf
    obtain ⟨hname, hactions⟩ := Value.overrun?_entry h hf
    rw [Option.or_eq_none_iff]
    exact ⟨Plan.overrun?_of_text hactions, hname⟩
  · rfl

/-- A node that nests no deeper than there is room for, and has a text, is checked with all below
it. -/
theorem nodeOverrun?_of_text {room : Nat} (hfits : v.fits room = true)
    (h : v.overrun? limits.digits limits.showing = none) :
    nodeOverrun? limits room v = none := by
  induction room generalizing v with
  | zero => simp [Value.fits] at hfits
  | succ room ih =>
    unfold nodeOverrun?
    split
    · rfl
    · rename_i fields hfields
      obtain rfl := Value.fields?_eq_some hfields
      simp only
      split
      · exact Value.overrun?_field h "type"
      · rename_i kind hkind
        rw [Option.or_eq_none_iff, List.findSome?_eq_none_iff]
        refine ⟨eventsOverrun?_of_text (Value.overrun?_field h "events"), fun c hc => ?_⟩
        split at hc
        · obtain ⟨items, hitems, hmem⟩ := Value.exists_of_mem_children hc
          have hentry := Fields.mem_of_get? hitems
          refine ih ?_ (Value.overrun?_item (Value.overrun?_entry h hentry).2 rfl hmem)
          rw [Value.fits, List.all_eq_true] at hfits
          have hlist := ((Bool.and_eq_true _ _).mp (hfits _ hentry)).2
          cases room with
          | zero => simp [Value.fits] at hlist
          | succ room =>
            rw [Value.fits, List.all_eq_true] at hlist
            exact Value.fits_succ (hlist c hmem)
        · cases hc

/-- A modest tree is checked to the end. -/
theorem overrun?_of_modest (h : v.Modest limits) : overrun? limits v = none := by
  unfold overrun?
  rw [Value.offenceWithin_of_fits h.checking]
  exact nodeOverrun?_of_text h.visiting (Value.overrun?_eq_none_iff.mpr ⟨h.showing, h.short⟩)

end Check

end Texts

namespace Document

/-! ## What is in the way -/

/-- A source from which a document with a tree is read within limits. -/
def RootedWithin (limits : Limits) (source : Value) (fields : Fields) (root : Value) : Prop :=
  ofSourceWithin limits source = .ok (.object fields) ∧ Fields.get? fields "root" = some root

/-- What is in the way of loading the document in a source: its text nests too deep to be read, its
tree is too deep to be checked or a message cannot show what it is to show, or a tree without errors
is too deep to be copied. -/
inductive Hindered (limits : Limits) (source : Value) : Overrun → Prop where
  | reading (deep : ofSourceWithin limits source = .error .depth) : Hindered limits source .depth
  | checking {fields : Fields} {root : Value} {e : Overrun}
      (rooted : RootedWithin limits source fields root)
      (stops : Check.overrun? limits root = some e) : Hindered limits source e
  | copying {fields : Fields} {root : Value} (rooted : RootedWithin limits source fields root)
      (checked : Check.overrun? limits root = none) (passed : (Check.tree root).errors = [])
      (deep : root.fits limits.copying = false) : Hindered limits source .depth

/-- How many brackets the text of a source opens. -/
def openings : Value → Nat
  | .text s => Json.openings s.toList
  | .octets bytes =>
    match Text.Utf8.decode bytes with
    | .error _ => 0
    | .ok s => Json.openings s
  | _ => 0

/-- A source that opens no more brackets than can be read, with a modest tree if there is one. -/
structure Modest (limits : Limits) (source : Value) : Prop where
  text : openings source ≤ limits.reading
  tree : ∀ fields root, RootedWithin limits source fields root → root.Modest limits

section Sources

variable {limits : Limits} {source : Value} {fields : Fields} {root : Value}

theorem RootedWithin.unique {fields' : Fields} {root' : Value}
    (h : RootedWithin limits source fields root)
    (h' : RootedWithin limits source fields' root') : fields' = fields ∧ root' = root := by
  obtain ⟨hsource, hroot⟩ := h
  obtain ⟨hsource', hroot'⟩ := h'
  cases hsource.symm.trans hsource'
  exact ⟨rfl, Option.some.inj (hroot'.symm.trans hroot)⟩

/-- The text of a source that opens no more brackets than can be read is not too deep. -/
theorem ofSourceWithin_ne_depth (h : openings source ≤ limits.reading) :
    ofSourceWithin limits source ≠ .error .depth := by
  unfold ofSourceWithin
  split
  · exact Json.valueOfTextWithin_shallow .strict h
  · unfold openings at h
    simp only at h
    split
    · exact fun h => by cases h
    · rename_i s hdecode
      rw [hdecode] at h
      exact Json.valueOfTextWithin_shallow .strict (by rwa [String.toList_ofList])
  · exact fun h => by cases h

/-- Nothing is in the way of a modest source. -/
theorem not_hindered (h : Modest limits source) (e : Overrun) : ¬ Hindered limits source e := by
  intro hindered
  cases hindered with
  | reading deep => exact ofSourceWithin_ne_depth h.text deep
  | checking rooted stops =>
    rw [Check.overrun?_of_modest (h.tree _ _ rooted)] at stops
    cases stops
  | copying rooted _ _ deep =>
    rw [(h.tree _ _ rooted).copying] at deep
    cases deep

/-- Where nothing is in the way, a tree is checked to the end, and copied if it has no errors. -/
theorem clear_of_not_hindered (h : RootedWithin limits source fields root)
    (hfree : ∀ e, ¬ Hindered limits source e) :
    Check.overrun? limits root = none ∧
      ((Check.tree root).errors = [] → root.fits limits.copying = true) := by
  have hchecked : Check.overrun? limits root = none :=
    Option.eq_none_iff_forall_ne_some.mpr fun e he => hfree e (.checking h he)
  refine ⟨hchecked, fun herrors => ?_⟩
  by_contra hdeep
  exact hfree _ (.copying h hchecked herrors (Bool.eq_false_iff.mpr hdeep))

/-! ## What comes of a source -/

theorem loadWithin_of_overrun (s : Store) (version : Value) {e : Overrun}
    (h : Check.overrun? limits root = some e) :
    loadWithin limits s version root = .error (.overrun e) := by
  rw [loadWithin, h]

theorem loadWithin_of_deep (s : Store) (version : Value) (h : Check.overrun? limits root = none)
    (herrors : (Check.tree root).errors = []) (hdeep : root.fits limits.copying = false) :
    loadWithin limits s version root = .error (.overrun .depth) := by
  rw [loadWithin, h]
  simp only [loadOrFault_eq, load_of_checked s version herrors, hdeep, Bool.not_false,
    Bool.and_self, if_true]

/-- Where nothing is in the way, a tree is loaded as it is without limits. -/
theorem loadWithin_eq (s : Store) (version : Value) (h : Check.overrun? limits root = none)
    (hfits : (Check.tree root).errors = [] → root.fits limits.copying = true) :
    loadWithin limits s version root = .ok (load s version root) := by
  rw [loadWithin, h]
  simp only [loadOrFault_eq]
  by_cases herrors : (Check.tree root).errors = []
  · simp only [load_of_checked s version herrors, hfits herrors, Bool.not_true, Bool.and_false,
      Bool.false_eq_true, if_false]
  · simp only [load_of_errors s version herrors, Bool.false_and, Bool.false_eq_true, if_false]

theorem answerWithin_of_rooted (s : Store) (h : RootedWithin limits source fields root) :
    answerWithin limits s source = loadWithin limits s (Fields.field fields "version") root := by
  unfold answerWithin
  simp only [h.1, Value.fields?, h.2]

/-- A source without a tree that is not too deep to be read is refused. -/
theorem answerWithin_of_not_rooted (s : Store)
    (hdeep : ofSourceWithin limits source ≠ .error .depth)
    (h : ∀ fields root, ¬ RootedWithin limits source fields root) :
    ∃ issue, answerWithin limits s source = .ok (.refused issue, s) := by
  unfold answerWithin
  cases hsource : ofSourceWithin limits source with
  | error b =>
    cases b with
    | depth => exact absurd hsource hdeep
    | _ => exact ⟨_, rfl⟩
  | ok document =>
    cases hfields : document.fields? with
    | none => exact ⟨rootMissing, by simp only [hfields]⟩
    | some fields =>
      obtain rfl := Value.fields?_eq_some hfields
      cases hroot : Fields.get? fields "root" with
      | none => exact ⟨rootMissing, by simp only [Value.fields?, hroot]⟩
      | some root => exact absurd ⟨hsource, hroot⟩ (h fields root)

/-- Where something is in the way, there is no answer, and the store is as it was. -/
theorem acceptWithin_of_hindered (s : Store) {e : Overrun} (h : Hindered limits source e) :
    acceptWithin limits s source = (.error (.overrun e), s) := by
  have hanswer : answerWithin limits s source = .error (.overrun e) := by
    cases h with
    | reading deep =>
      unfold answerWithin
      rw [deep]
    | checking rooted stops =>
      rw [answerWithin_of_rooted s rooted, loadWithin_of_overrun s _ stops]
    | copying rooted checked passed deep =>
      rw [answerWithin_of_rooted s rooted, loadWithin_of_deep s _ checked passed deep]
  rw [acceptWithin, hanswer]

/-- Reading a source within limits keeps to reading it without. -/
theorem ofSourceWithin_keeps (limits : Limits) (source : Value) :
    Json.Keeps (ofSource source) (ofSourceWithin limits source) := by
  cases source with
  | atom a =>
    cases a with
    | text s => exact Json.valueOfTextWithin_keeps limits .strict s
    | octets bytes =>
      unfold ofSource ofSourceWithin
      simp only
      cases Text.Utf8.decode bytes with
      | error f => exact .same
      | ok s => exact Json.valueOfTextWithin_keeps limits .strict (String.ofList s)
    | _ => exact .ok
  | _ => exact .ok

/-- Where nothing is in the way and no integer of the text has too many digits, a source is loaded
as it is without limits. -/
theorem acceptWithin_eq (s : Store) (hfree : ∀ e, ¬ Hindered limits source e)
    (hshort : ∀ limit count, ofSourceWithin limits source ≠ .error (.digits limit count)) :
    acceptWithin limits s source = (.ok (accept s source).1, (accept s source).2) := by
  have hkeeps := ofSourceWithin_keeps limits source
  have hsame : ofSourceWithin limits source = (ofSource source).mapError .fault := by
    generalize hwithin : ofSourceWithin limits source = read at hkeeps
    cases hkeeps with
    | same => rfl
    | digits limit count => exact absurd hwithin (hshort limit count)
    | depth => exact absurd (.reading hwithin) (hfree .depth)
  unfold acceptWithin answerWithin accept
  rw [hsame]
  cases hsource : ofSource source with
  | error f => rfl
  | ok document =>
    simp only [Except.mapError]
    cases hfields : document.fields? with
    | none => rfl
    | some fields =>
      obtain rfl := Value.fields?_eq_some hfields
      simp only
      cases hroot : Fields.get? fields "root" with
      | none => rfl
      | some root =>
        have hrooted : RootedWithin limits source fields root :=
          ⟨by rw [hsame, hsource]; rfl, hroot⟩
        obtain ⟨hchecked, hfits⟩ := clear_of_not_hindered hrooted hfree
        simp only [loadWithin_eq s _ hchecked hfits]

/-- A text of brackets alone is in the way, if there are more of them than can be read. -/
theorem hindered_brackets {count : Nat} (h : limits.reading < count) :
    Hindered limits (.text (String.ofList (List.replicate count '['))) .depth :=
  .reading (Json.valueOfTextWithin_brackets limits .strict h)

/-- What is said of a source and what becomes of the store: a document is loaded just if it has a
tree without errors; the store is left alone where it is refused, and where it is loaded its tree is
stored with what is missing filled in. -/
structure Answered (limits : Limits) (s : Store) (source : Value) (said : Import)
    (after : Store) : Prop where
  ok : said.ok = true ↔
    ∃ fields root, RootedWithin limits source fields root ∧ (Check.tree root).errors = []
  refused : said.ok = false → after = s
  filled : ∀ fields root, RootedWithin limits source fields root → said.ok = true →
    Filled root after.root
  selected : said.ok = true → after.selected = .null
  context : said.ok = true → after.context = s.context
  errors : said.ok = true → (Check.tree after.root).errors = []
  warnings : said.ok = true → ∀ i ∈ (Check.tree after.root).warnings,
    i.code ≠ .nodePropsMissing ∧ i.code ≠ .nodeChildrenMissing

theorem answered_refused (s : Store)
    (h : ∀ fields root, RootedWithin limits source fields root →
      (Check.tree root).errors ≠ []) {said : Import} (hsaid : said.ok = false) :
    Answered limits s source said s := by
  have hno : said.ok ≠ true := by simp [hsaid]
  refine ⟨iff_of_false hno ?_, fun _ => rfl, fun _ _ _ hok => absurd hok hno,
    fun hok => absurd hok hno, fun hok => absurd hok hno, fun hok => absurd hok hno,
    fun hok => absurd hok hno⟩
  rintro ⟨fields, root, hrooted, herrors⟩
  exact h fields root hrooted herrors

theorem answered_load (s : Store) (h : RootedWithin limits source fields root) :
    Answered limits s source (load s (Fields.field fields "version") root).1
      (load s (Fields.field fields "version") root).2 := by
  by_cases herrors : (Check.tree root).errors = []
  · rw [load_of_checked s _ herrors]
    refine ⟨iff_of_true rfl ⟨fields, root, h, herrors⟩, fun hok => (by cases hok), ?_,
      fun _ => rfl, fun _ => rfl, fun _ => errors_shaped herrors,
      fun _ => nothing_missing_shaped herrors⟩
    intro fields' root' h' _
    rw [(h.unique h').2]
    exact filled_of_checked herrors
  · rw [load_of_errors s _ herrors]
    refine answered_refused s (fun fields' root' h' => ?_) rfl
    rwa [(h.unique h').2]

/-- Loading a document within limits is all or nothing, for every store and every source. If
something is in the way there is no answer, and the store is as it was. If nothing is, there is an
answer, and the document is loaded just if it has a tree without errors. Nothing is in the way of a
source that opens no more brackets than can be read and whose tree is modest. -/
theorem acceptWithin_spec (limits : Limits) (s : Store) (source : Value) :
    (∀ e, Hindered limits source e → acceptWithin limits s source = (.error (.overrun e), s)) ∧
    ((∀ e, ¬ Hindered limits source e) → ∃ said after,
      acceptWithin limits s source = (.ok said, after) ∧ Answered limits s source said after) ∧
    (Modest limits source → ∀ e, ¬ Hindered limits source e) := by
  refine ⟨fun e => acceptWithin_of_hindered s, fun hfree => ?_, not_hindered⟩
  by_cases h : ∃ fields root, RootedWithin limits source fields root
  · obtain ⟨fields, root, h⟩ := h
    obtain ⟨hchecked, hfits⟩ := clear_of_not_hindered h hfree
    refine ⟨_, _, ?_, answered_load s h⟩
    rw [acceptWithin, answerWithin_of_rooted s h, loadWithin_eq s _ hchecked hfits]
  · have hnone : ∀ fields root, ¬ RootedWithin limits source fields root :=
      fun fields root hr => h ⟨fields, root, hr⟩
    obtain ⟨issue, hanswer⟩ :=
      answerWithin_of_not_rooted s (fun hdeep => hfree _ (.reading hdeep)) hnone
    refine ⟨.refused issue, s, by rw [acceptWithin, hanswer], ?_⟩
    exact answered_refused s (fun fields root hr => absurd hr (hnone fields root)) rfl

end Sources

/-- There is no answer for a text of 100000 brackets, and none for a document whose page has an
integer of 4301 digits for its type. -/
theorem acceptWithin_unanswered :
    let start := Store.start .null .null
    let page : Value := .ofFields [("id", .text "p"), ("type", .ofNat (Nat.pow 10 4300))]
    acceptWithin .usual start (.text (String.ofList (List.replicate 100000 '['))) =
        (.error (.overrun .depth), start) ∧
      acceptWithin .usual start (.ofFields [("root", page)]) =
        (.error (.overrun .digits), start) := by
  intro start page
  have hreading : Limits.usual.reading < 100000 := by
    simp [Limits.usual]
  have hrooted : RootedWithin .usual (.ofFields [("root", page)])
      [(.text "root", page)] page := ⟨rfl, rfl⟩
  have hlong : (Value.ofNat (Nat.pow 10 4300)).overrun? Limits.usual.digits Limits.usual.showing =
      some .digits := Value.overrun?_eq_digits rfl .here (isShort_pow 4300)
  have hover : Check.overrun? .usual page = some .digits := hlong
  exact ⟨acceptWithin_of_hindered start (hindered_brackets hreading),
    acceptWithin_of_hindered start (.checking hrooted hover)⟩

end Document

end PageBuilder
