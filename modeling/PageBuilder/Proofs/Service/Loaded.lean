import PageBuilder.Proofs.Document.Import
import PageBuilder.Proofs.Service.Reload

/-!
A document that is sent to be loaded: as a whole or not at all.

* `Whole`: the request is granted and the tree is that of the document, or it is not granted and the
  store is as it was;
* `loading_refused`, `loading_done`: what becomes of the store and of the status of the answer;
* `whole_iff`: the request is all or nothing just if the version of the document can be written, or
  there was nothing to be changed;
* `not_whole_overflown`: a document is not granted, but its page is there from then on.
-/

namespace PageBuilder.Session

open Document (Rooted Filled)
open Answer (Writable)

variable {s : Session} {body : List UInt8} {origin : Option String} {fields : Fields}
  {root : Value}

/-- A request to load the document in a body. -/
def loading (body : List UInt8) (origin : Option String) : Inquiry :=
  ⟨"POST", "/document", body, origin⟩

theorem outcome_loading (s : Session) (body : List UInt8) (origin : Option String) :
    s.outcome (loading body origin) = s.loadDocumentCall body := by
  have hcall : Call.ofRequest? "POST" "/document" = some .loadDocument := by decide
  exact outcome_of_call (q := loading body origin) hcall

/-- All or nothing: the request is granted, and the tree of the document is stored with what is
missing filled in, or it is not granted and the store is as before. -/
inductive Whole (s : Session) (q : Inquiry) : Prop where
  | loaded {fields : Fields} {root tree : Value} (status : (s.serve q).1.status = 200)
      (rooted : Rooted (.octets q.body) fields root) (filled : Filled root tree)
      (store : (s.serve q).2.store = s.store.replaceTree tree)
  | refused (status : (s.serve q).1.status ≠ 200) (store : (s.serve q).2.store = s.store)

/-! ## Documents that are refused -/

/-- A source without a tree that passes the check changes nothing. -/
theorem accept_refused (store : Store) {source : Value}
    (h : ∀ fields root, Rooted source fields root → (Check.tree root).errors ≠ []) :
    ∃ said, Document.accept store source = (said, store) ∧ said.ok = false := by
  by_cases hrooted : ∃ fields root, Rooted source fields root
  · obtain ⟨fields, root, hrooted⟩ := hrooted
    rw [Document.accept_of_rooted store hrooted,
      Document.load_of_errors store _ (h fields root hrooted)]
    exact ⟨_, rfl, rfl⟩
  · obtain ⟨issue, hrefused⟩ := Document.accept_of_not_rooted store
      fun fields root hr => hrooted ⟨fields, root, hr⟩
    exact ⟨_, hrefused, rfl⟩

theorem loading_refused (s : Session) (origin : Option String)
    (h : ∀ fields root, Rooted (.octets body) fields root → (Check.tree root).errors ≠ []) :
    (s.serve (loading body origin)).1.status ≠ 200 ∧
      (s.serve (loading body origin)).2.store = s.store := by
  obtain ⟨said, hsaid, hok⟩ := accept_refused s.store h
  have houtcome : s.outcome (loading body origin) =
      { session := s, answer := .failed 400 said.errors said.warnings } := by
    rw [outcome_loading]
    unfold loadDocumentCall
    rw [hsaid]
    simp only [hok, Bool.not_false, if_true]
    rfl
  refine ⟨?_, by rw [serve_session, houtcome]⟩
  rcases serve_status (q := loading body origin) (congrArg Outcome.answer houtcome) with h | h <;>
    omega

/-! ## Documents that are loaded -/

/-- What is read from octets has a text. -/
theorem spelled_of_rooted (h : Rooted (.octets body) fields root) :
    (Value.object fields).Spelled := by
  have hsource := h.1
  unfold Document.ofSource at hsource
  simp only at hsource
  split at hsource
  · cases hsource
  · exact Json.valueOfText_spelled hsource

/-- A tree that passed the check is storable in shape. -/
theorem storable_shaped (hplain : root.Plain) (herrors : (Check.tree root).errors = []) :
    (Document.shaped root).Storable :=
  Value.Plain.storable (Document.lasting_shaped Value.lasting_plain root hplain)
    (Document.offence?_shaped ((Check.tree_errors_iff root).mp herrors).1)

theorem bare_checkVersion (version : Value) :
    ∀ i ∈ Document.checkVersion version, i.detail = .null := by
  unfold Document.checkVersion
  split
  · exact List.forall_mem_nil _
  · exact List.forall_mem_singleton.mpr rfl

/-- A document whose tree passes the check is loaded; the answer tells so just if the version can be
written. -/
theorem loading_done (s : Session) (origin : Option String) (h : Rooted (.octets body) fields root)
    (herrors : (Check.tree root).errors = []) :
    (s.serve (loading body origin)).2.store = s.store.replaceTree (Document.shaped root) ∧
      ((s.serve (loading body origin)).1.status = 200 ↔
        Writable (Fields.field fields "version")) := by
  let loaded := s.withStore (s.store.replaceTree (Document.shaped root))
  let version := Fields.field fields "version"
  let warnings := Document.checkVersion version ++ (Check.tree root).warnings
  have hspelled := spelled_of_rooted h
  have hroot : loaded.store.root.Storable :=
    storable_shaped (hspelled.plain.get? (v := .object fields) h.2) herrors
  obtain ⟨digest, hdigest⟩ := digest_of_storable hroot
  let answer := Answer.ok [("version", version), ("tree_hash", .text digest)] warnings
  have houtcome : s.outcome (loading body origin) = { session := loaded, answer } := by
    rw [outcome_loading]
    unfold loadDocumentCall
    rw [Document.accept_of_rooted s.store h, Document.load_of_checked s.store _ herrors]
    simp only [Bool.not_true, Bool.false_eq_true, if_false,
      show (s.withStore (s.store.replaceTree (Document.shaped root))).store.digest = .ok digest from
        hdigest]
    rfl
  have hversion : version.Spelled :=
    (Value.MadeOf.closed (.inl rfl) fun _ => .inl rfl).field hspelled "version"
  have hstore : (s.serve (loading body origin)).2.store =
      s.store.replaceTree (Document.shaped root) := by
    rw [serve_session, houtcome]
    rfl
  have hanswer : (s.outcome (loading body origin)).answer = answer :=
    congrArg Outcome.answer houtcome
  refine ⟨hstore, (serve_status_iff hanswer (by decide)).trans ?_⟩
  rw [hanswer, Answer.sent?_ok_isSome_iff (by simp) ?_ ?_]
  · simp [version, Atom.offence?]
  · have hnames : Answer.isHidden (.text "version") = false ∧
        Answer.isHidden (.text "tree_hash") = false := by decide
    exact List.forall_mem_cons.mpr
      ⟨⟨hnames.1, hversion⟩, List.forall_mem_singleton.mpr ⟨hnames.2, .atom (.inl rfl)⟩⟩
  · exact List.forall_mem_append.mpr ⟨bare_checkVersion version, Check.bare_tree root⟩

/-- A document is loaded as a whole or not at all, for every session and every body, just if each
document whose tree passes the check has a version that can be written when it is sent, or is
the page already. -/
theorem whole_iff (s : Session) (body : List UInt8) (origin : Option String) :
    s.Whole (loading body origin) ↔ ∀ fields root, Rooted (.octets body) fields root →
      (Check.tree root).errors = [] →
        Writable (Fields.field fields "version") ∨
          s.store.replaceTree (Document.shaped root) = s.store := by
  constructor
  · intro hwhole fields root hrooted herrors
    obtain ⟨hstore, hstatus⟩ := loading_done s origin hrooted herrors
    cases hwhole with
    | loaded hgranted => exact .inl (hstatus.mp hgranted)
    | refused _ hsame => exact .inr (hstore.symm.trans hsame)
  · intro h
    by_cases hpassed : ∃ fields root, Rooted (.octets body) fields root ∧
        (Check.tree root).errors = []
    · obtain ⟨fields, root, hrooted, herrors⟩ := hpassed
      obtain ⟨hstore, hstatus⟩ := loading_done s origin hrooted herrors
      by_cases hversion : Writable (Fields.field fields "version")
      · exact .loaded (hstatus.mpr hversion) hrooted (Document.filled_of_checked herrors) hstore
      · refine .refused (fun hgranted => hversion (hstatus.mp hgranted)) (hstore.trans ?_)
        exact (h fields root hrooted herrors).resolve_left hversion
    · obtain ⟨hstatus, hstore⟩ := loading_refused s origin
        fun fields root hrooted herrors => hpassed ⟨fields, root, hrooted, herrors⟩
      exact .refused hstatus hstore

/-! ## A version beyond the floats -/

/-- A number too large for a float is read as an infinite one. -/
theorem readsBack_overflown (rules : Json.Rules) :
    Json.ReadsBack rules "1e+999".toList (.float (.infinity false)) := by
  have hone : Json.Whole ['1'] := Json.whole_toDigits 1
  have hnone : Json.AllDigits [] := fun c hc => by cases hc
  refine Json.readsBack_number rules (fun rest => .inl ⟨'1', _, rfl, rfl⟩) fun rest hrest => ?_
  have hparts := Json.readUnsigned_parts (e := some 999) false hone hnone hrest
  have hnumber : Json.number false ['1'] [] (some 999) = .float (.infinity false) := by rfl
  have htext : "1e+999".toList ++ rest =
      ['1'] ++ (Json.fractionText [] ++ (Json.exponentTextOf (some 999) ++ rest)) := rfl
  rw [htext, Json.readNumber_of_digitFirst (hone.digitFirst _), hparts, hnumber]

def otherRoot : Value :=
  .ofFields [("id", .text "p"), ("type", .text "page"), ("props", .object []),
    ("children", .list [])]

def otherText : String :=
  "\x7b\"id\":\"p\",\"type\":\"page\",\"props\":\x7b\x7d,\"children\":[]\x7d"

def overflownText : String := "\x7b\"version\":1e+999,\"root\":" ++ otherText ++ "\x7d"

/-- A document of a page, with a number too large for a float as the version. -/
def overflown : List UInt8 := Text.Utf8.encode overflownText

theorem rooted_overflown : Rooted (.octets overflown)
    [(.text "version", .float (.infinity false)), (.text "root", otherRoot)] otherRoot := by
  have hstorable : otherRoot.Storable := by simp [otherRoot, Atom.offence?]
  have hwritten : Json.write .compact 0 otherRoot = .ok otherText.toList := by decide +kernel
  obtain ⟨part, hpart, hback⟩ :=
    Json.write_storable_readsBack Json.regular_compact .strict hstorable 0
  obtain rfl : otherText.toList = part := Except.ok.inj (hwritten.symm.trans hpart)
  have htext : Json.enclosed .compact 0 '\x7b' '\x7d'
      [Json.quoted "version".toList ++ [':'] ++ "1e+999".toList,
        Json.quoted "root".toList ++ [':'] ++ otherText.toList] = overflownText.toList := by
    decide +kernel
  have hread := Json.readsBack_object Json.regular_compact 0
    ((Fields.distinct_texts_iff [("version", .float (.infinity false)),
      ("root", otherRoot)]).mpr (by decide))
    (.cons ⟨"version", _, rfl, rfl, readsBack_overflown .strict⟩
      (.cons ⟨"root", _, rfl, rfl, hback⟩ .nil))
  have hvalue := (htext ▸ hread).valueOfText
  refine ⟨?_, rfl⟩
  unfold Document.ofSource overflown
  simp only [Text.Utf8.decode_encode, String.ofList_toList]
  rw [String.ofList_toList] at hvalue
  exact hvalue

theorem passable_otherRoot : Check.Passable otherRoot where
  named := ⟨"p", rfl, by decide⟩
  known := rfl
  presentable :=
    { props := fun p hp => by
        obtain rfl : Value.object [] = p := Option.some.inj hp
        rfl
      style := fun p hp => by cases hp
      label := .inl rfl
      events := .inl rfl }
  leaf := fun h => by cases h
  container := fun _ => .inr rfl

theorem errors_otherRoot : (Check.tree otherRoot).errors = [] := by
  have hchildren : otherRoot.children = [] := rfl
  refine (Check.tree_errors_iff otherRoot).mpr
    ⟨by decide, ["p"], rfl, passable_otherRoot, by decide, "p", rfl, List.not_mem_nil, ?_⟩
  rw [hchildren]
  exact .nil _

theorem serve_overflown : (begun.serve (loading overflown none)).1.status ≠ 200 ∧
    (begun.serve (loading overflown none)).2.store = begun.store.replaceTree otherRoot := by
  have hshaped : Document.shaped otherRoot = otherRoot := by cbv
  have hversion : Fields.field
      [(.text "version", .float (.infinity false)), (.text "root", otherRoot)] "version" =
        .float (.infinity false) := rfl
  obtain ⟨hstore, hstatus⟩ := loading_done begun none rooted_overflown errors_otherRoot
  rw [hshaped] at hstore
  rw [hversion, Answer.writable_atom_iff] at hstatus
  refine ⟨fun hgranted => ?_, hstore⟩
  have hfinite := hstatus.mp hgranted
  cases hfinite

/-- With such a version the page is loaded, but the answer can not be written and tells of an
internal error. -/
theorem not_whole_overflown :
    begun.store.root = Store.initialRoot ∧ (begun.serve (loading overflown none)).1.status ≠ 200 ∧
      (begun.serve (loading overflown none)).2.store.root = otherRoot ∧
      ¬ begun.Whole (loading overflown none) := by
  obtain ⟨hrefused, hstore⟩ := serve_overflown
  refine ⟨rfl, hrefused, congrArg Store.root hstore, fun hwhole => ?_⟩
  cases hwhole with
  | loaded hgranted => exact hrefused hgranted
  | refused _ hsame =>
    have hroot : begun.store.root = otherRoot := congrArg Store.root (hsame.symm.trans hstore)
    have hid : (.text "root" : Value).isTextOf "root" = (.text "p" : Value).isTextOf "root" :=
      congrArg (fun v => (v.field "id").isTextOf "root") hroot
    cases hid

end PageBuilder.Session
