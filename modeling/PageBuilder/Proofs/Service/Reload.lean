import PageBuilder.Proofs.Document.RoundTrip
import PageBuilder.Proofs.Document.Warnings
import PageBuilder.Proofs.Service.Answers

/-!
A page that a client asks for and sends back to be loaded.

* `Survives`: the document of the page is answered, and loads the page again;
* `Fits`: what has to hold of the tree for that;
* `survives_iff_fits`: after a reset and any requests, the page survives just if it fits;
* `not_survives_spoiled`: a request that is granted and after which the page does not survive.
-/

namespace PageBuilder

namespace Session

open PageBuilder.Tree (nodes Kept)
open Answer (Shown SentAs)

/-! ## The exchange -/

def askDocument : Inquiry := ⟨"GET", "/document", [], none⟩

def offerDocument (text : String) : Inquiry := ⟨"POST", "/document", Text.Utf8.encode text, none⟩

/-- The document that a client reads in the answer to its request for it. -/
def readDocument? (s : Session) : Option Value := do
  let text ← (s.serve askDocument).1.text.toOption
  let body ← (Json.valueOfText .strict text).toOption
  body.get? "document"

/-- The answer to a document that the session was asked for, and the session then: the document is
loaded without errors, and the tree has the same canonical text as before and so the same digest. -/
structure Reloads (s : Session) (answer : Response × Session) : Prop where
  status : answer.1.status = 200
  errors : answer.1.body.field "errors" = .list []
  same : ∃ text, Json.canonicalText s.store.root = .ok text ∧
    Json.canonicalText answer.2.store.root = .ok text
  digest : ∃ digest, s.store.digest = .ok digest ∧ answer.2.store.digest = .ok digest ∧
    answer.1.body.field "tree_hash" = .text digest

/-- A client reads a document and can write it, and however it writes it, the document that it sends
back is loaded again. -/
structure Survives (s : Session) : Prop where
  written : ∃ document text, s.readDocument? = some document ∧
    Json.valueOfText .strict text = .ok document
  reloads : ∀ document text, s.readDocument? = some document →
    Json.valueOfText .strict text = .ok document →
      s.Reloads ((s.serve askDocument).2.serve (offerDocument text))

/-- What a page has to be for its document to load it again. -/
structure Fits (root : Value) : Prop where
  jsonLike : root.offence? = none
  shown : Shown root
  presentable : ∀ n ∈ nodes root, Check.Presentable n

variable {s : Session} {w : Value}

def documentOf (version : String) (root : Value) : Value :=
  .ofFields [("version", .text version), ("root", root)]

theorem outcome_askDocument (s : Session) : s.outcome askDocument = s.documentCall := by
  have hcall : Call.ofRequest? "GET" "/document" = some .document := by decide
  exact outcome_of_call (q := askDocument) hcall

theorem outcome_offerDocument (s : Session) (text : String) :
    s.outcome (offerDocument text) = s.loadDocumentCall (Text.Utf8.encode text) := by
  have hcall : Call.ofRequest? "POST" "/document" = some .loadDocument := by decide
  exact outcome_of_call (q := offerDocument text) hcall

/-! ## What is read -/

theorem storable_documentOf (version : String) (h : w.Storable) :
    (documentOf version w).Storable := by
  simp [documentOf, Atom.offence?, h]

/-- The body of an answer that holds a document. -/
def bodyOf (document : Value) : Value :=
  .ofFields [("ok", .bool true), ("document", document), ("errors", .list []),
    ("warnings", .list [])]

theorem storable_bodyOf {document : Value} (h : document.Storable) :
    (bodyOf document).Storable := by
  simp [bodyOf, Atom.offence?, h]

open Answer in
theorem sendable?_bodyOf {version : String} {root : Value} (h : sendable? root = some w) :
    sendable? (bodyOf (documentOf version root)) = some (bodyOf (documentOf version w)) := by
  have hdocument : sendable? (documentOf version root) = some (documentOf version w) := by
    have hnames : ["version", "root"].Nodup := by decide
    exact sendable?_object (sendableFields?_cons (by decide) rfl
      (sendableFields?_cons (by decide) h rfl)) ((Fields.distinct_texts_iff _).mpr hnames)
  have hnames : ["ok", "document", "errors", "warnings"].Nodup := by decide
  exact sendable?_object (sendableFields?_cons (by decide) rfl
    (sendableFields?_cons (by decide) hdocument (sendableFields?_cons (by decide) rfl
      (sendableFields?_cons (by decide) rfl rfl)))) ((Fields.distinct_texts_iff _).mpr hnames)

/-- The document is answered with what is left of the tree when it is sent. -/
theorem serve_askDocument (h : SentAs s.store.root w) : ∃ headers, s.serve askDocument =
    (⟨200, bodyOf (documentOf s.settings.version w), headers, []⟩, s) := by
  have hsent : (Answer.ok [("document",
      Document.exported s.settings.version s.store .null)]).sent? =
        some (200, bodyOf (documentOf s.settings.version w)) :=
    Answer.sent?_body (sendable?_bodyOf h.sent)
      (storable_bodyOf (storable_documentOf _ h.storable))
  refine ⟨Cors.headers s.settings.origins none, ?_⟩
  unfold serve
  rw [outcome_askDocument]
  unfold documentCall
  simp only [hsent]
  rfl

theorem readDocument?_eq (h : SentAs s.store.root w) :
    s.readDocument? = some (documentOf s.settings.version w) := by
  obtain ⟨headers, hserve⟩ := serve_askDocument h
  obtain ⟨text, htext, hread⟩ := Json.valueOfText_text Json.regular_compact
    (storable_bodyOf (storable_documentOf s.settings.version h.storable)) .strict
  unfold readDocument? Response.text Json.compactText
  rw [hserve, htext]
  show (Json.valueOfText .strict text).toOption.bind _ = _
  rw [hread]
  rfl

/-! ## What is sent back -/

theorem accept_offered (store : Store) {version text : String}
    (h : Json.valueOfText .strict text = .ok (documentOf version w)) :
    Document.accept store (.octets (Text.Utf8.encode text)) =
      Document.load store (.text version) w := by
  refine Document.accept_of_source store _ ?_
  unfold Document.ofSource
  simp only [Text.Utf8.decode_encode, String.ofList_toList]
  exact h

section Offered

variable {version text : String}

theorem offered_refused (htext : Json.valueOfText .strict text = .ok (documentOf version w))
    (herrors : (Check.tree w).errors ≠ []) : (s.serve (offerDocument text)).1.status ≠ 200 := by
  have hanswer : ∃ errors warnings,
      (s.outcome (offerDocument text)).answer = .failed 400 errors warnings := by
    rw [outcome_offerDocument]
    unfold loadDocumentCall
    rw [accept_offered s.store htext, Document.load_of_errors s.store _ herrors]
    exact ⟨_, _, rfl⟩
  obtain ⟨errors, warnings, hanswer⟩ := hanswer
  rcases serve_status hanswer with h | h <;> omega

theorem offered_loaded (htext : Json.valueOfText .strict text = .ok (documentOf version w))
    (herrors : (Check.tree w).errors = []) :
    (s.serve (offerDocument text)).2.store.root = Document.shaped w := by
  rw [serve_session, outcome_offerDocument]
  unfold loadDocumentCall
  rw [accept_offered s.store htext, Document.load_of_checked s.store _ herrors]
  simp only [Bool.not_true, Bool.false_eq_true, if_false]
  split <;> rfl

/-- The answer to a document of a complete tree. -/
theorem offered_answered (htext : Json.valueOfText .strict text = .ok (documentOf version w))
    (herrors : (Check.tree w).errors = []) (hcomplete : ∀ n ∈ nodes w, Document.Complete n)
    {digest : String} (hdigest : Json.digest w = .ok digest) :
    (s.serve (offerDocument text)).1.status = 200 ∧
      (s.serve (offerDocument text)).1.body =
        Answer.okBody [("version", .text version), ("tree_hash", .text digest)]
          (Check.tree w).warnings := by
  have hanswer : (s.outcome (offerDocument text)).answer =
      .ok [("version", .text version), ("tree_hash", .text digest)] (Check.tree w).warnings := by
    have hstore : (s.withStore (s.store.replaceTree w)).store.digest = .ok digest := hdigest
    rw [outcome_offerDocument]
    unfold loadDocumentCall
    rw [accept_offered s.store htext, Document.load_of_complete s.store _ herrors hcomplete]
    simp only [Bool.not_true, Bool.false_eq_true, if_false, hstore]
    rfl
  refine serve_of_sent? ?_
  rw [hanswer]
  refine Answer.sent?_ok _ _ (by simp) ?_ (Check.bare_tree w)
  simp +decide [Atom.offence?]

end Offered

/-! ## The round trip -/

/-- A well-formed tree of presentable nodes has no errors. -/
theorem checked_of_fits {root : Value} (hk : Kept root) (h : Fits root) :
    (Check.tree root).errors = [] := by
  have hpassable : ∀ n ∈ nodes root, Check.Passable n := by
    intro n hn
    have hsound := hk.wellFormed.sound n hn
    refine ⟨hsound.named, hsound.known, h.presentable n hn, hsound.leaf, fun hc => .inr ?_⟩
    obtain ⟨items, hitems, -⟩ := hsound.container hc
    rw [hitems]
    rfl
  obtain ⟨id, after, hid, -, hnamed⟩ := hk.wellFormed.named
  have hself := Tree.self_mem_nodes root
  have hbelow := hnamed.and (R := Check.Passable) fun n hn => hpassable n (by
    rw [Tree.nodes_eq]
    exact List.mem_cons_of_mem _ hn)
  refine (Check.tree_errors_iff root).mpr ⟨h.jsonLike, after, ?_⟩
  refine ⟨(hk.wellFormed.sound root hself).isObject, hpassable root hself, ?_, id, hid,
    List.not_mem_nil, hbelow.imp fun n hn => ⟨hn.2, hn.1.notPage⟩⟩
  exact ⟨fun _ => rfl, fun _ => hk.wellFormed.page⟩

theorem complete_of_kept {root : Value} (hk : Kept root) (h : (Check.tree root).errors = []) :
    ∀ n ∈ nodes root, Document.Complete n := by
  refine Document.complete_of_checked h hk.props fun n hn hc => ?_
  obtain ⟨items, hitems, -⟩ := (hk.wellFormed.sound n hn).container hc
  rw [hitems]
  rfl

/-- A page that fits is loaded again from its document. -/
theorem survives_of_fits (hk : Kept s.store.root) (h : Fits s.store.root) : s.Survives := by
  have hstorable := hk.plain.storable h.jsonLike
  have hsent : SentAs s.store.root s.store.root := .of_shown hstorable h.shown
  have hdocument := readDocument?_eq hsent
  obtain ⟨canonical, hcanonical⟩ := Json.canonicalText_ok hstorable.offence?
  have hdigest : Json.digest s.store.root = .ok (Json.digestText canonical) := by
    rw [Json.digest, hcanonical]
    rfl
  have hchecked := checked_of_fits hk h
  have hcomplete := complete_of_kept hk hchecked
  refine ⟨?_, fun document text hread htext => ?_⟩
  · obtain ⟨text, -, htext⟩ := Json.valueOfText_text Json.regular_compact
      (storable_documentOf s.settings.version hstorable) .strict
    exact ⟨_, text, hdocument, htext⟩
  · obtain rfl : documentOf s.settings.version s.store.root = document :=
      Option.some.inj (hdocument.symm.trans hread)
    obtain ⟨headers, hserve⟩ := serve_askDocument hsent
    rw [hserve]
    obtain ⟨hstatus, hbody⟩ := offered_answered (s := s) htext hchecked hcomplete hdigest
    have hafter := offered_loaded (s := s) htext hchecked
    rw [Document.shaped_eq_self _ hcomplete] at hafter
    refine ⟨hstatus, ?_, ⟨canonical, hcanonical, ?_⟩, ⟨_, hdigest, ?_, ?_⟩⟩
    · rw [hbody]
      rfl
    · rw [hafter, hcanonical]
    · rw [Store.digest, hafter, hdigest]
    · rw [hbody]
      rfl

/-- A page that is loaded again from its document fits. -/
theorem fits_of_survives (hk : Kept s.store.root) (h : s.Survives) : Fits s.store.root := by
  obtain ⟨document, text, hread, htext⟩ := h.written
  have hreloads := h.reloads document text hread htext
  obtain ⟨canonical, hbefore, hafter⟩ := hreloads.same
  have hjson := ((Json.canonicalText_eq_ok_iff _ _).mp hbefore).1
  obtain ⟨w, hw⟩ := Answer.exists_sentAs (hk.plain.storable hjson)
  obtain rfl : documentOf s.settings.version w = document :=
    Option.some.inj ((readDocument?_eq hw).symm.trans hread)
  obtain ⟨headers, hserve⟩ := serve_askDocument hw
  rw [hserve] at hreloads hafter
  have hchecked : (Check.tree w).errors = [] := by
    by_contra hne
    exact offered_refused htext hne hreloads.status
  -- The tree is now the one that was sent, in shape; it has the text of the tree before, so that
  -- nothing can have been hidden in that one.
  rw [offered_loaded htext hchecked] at hafter
  have hplain := Document.lasting_shaped Value.lasting_plain w hw.storable.plain
  have hsorted := Json.sorted_eq_of_canonicalText hk.plain hplain hbefore hafter
  have hshown : Shown s.store.root := by
    rw [← Answer.shown_sorted_iff hk.plain, hsorted, Answer.shown_sorted_iff hplain]
    exact Answer.shown_shaped hw.shown
  have heq := hw.same hshown
  subst heq
  obtain ⟨-, after, hgranted⟩ := (Check.tree_errors_iff s.store.root).mp hchecked
  exact ⟨hjson, hshown, fun n hn => (hgranted.passable_of_mem n hn).presentable⟩

/-- Whatever requests are made after a reset, the document of the page loads it again just if the
page fits: all its values are those of JSON, no name is hidden, and every node is presentable. -/
theorem survives_iff_fits (h : Reached s) : s.Survives ↔ Fits s.store.root :=
  ⟨fits_of_survives h.kept, survives_of_fits h.kept⟩

/-- A session that was just reset. -/
def begun : Session :=
  reset ⟨⟨none, Settings.usualVersion, []⟩, ⟨fun n => toString n, 0⟩, .start .null .null, 0, []⟩
    .null

theorem fits_initialRoot : Fits Store.initialRoot := by
  refine ⟨by decide, ?_, ?_⟩
  · simp +decide [Store.initialRoot]
  · have hchildren : Store.initialRoot.children = [] := rfl
    rw [Tree.nodes_eq, hchildren, Tree.nodesOf_nil, List.forall_mem_singleton]
    refine ⟨fun p hp => ?_, fun p hp => ?_, .inr rfl, .inl rfl⟩
    · obtain rfl : Value.object [] = p := Option.some.inj hp
      rfl
    · obtain rfl : Value.ofFields [("padding", .text "20px"), ("minHeight", .text "100%")] = p :=
        Option.some.inj hp
      rfl

theorem survives_begun : Reached begun ∧ Fits begun.store.root ∧ begun.Survives :=
  ⟨.reset .., fits_initialRoot, (survives_iff_fits (.reset ..)).mpr fits_initialRoot⟩

/-- A request that puts a number in the place of the properties of the page. -/
def spoil : Inquiry :=
  ⟨"PATCH", "/nodes/root", Text.Utf8.encode "\x7b\"props\":5\x7d", none⟩

def spoiledRoot : Value :=
  .ofFields [
    ("id", .text "root"),
    ("type", .text ComponentKind.page.name),
    ("label", .text "Page Root"),
    ("props", .int 5),
    ("children", .list []),
    ("style", .ofFields [("padding", .text "20px"), ("minHeight", .text "100%")])]

theorem readBody_spoil : readBody spoil.body = .ok (.ofFields [("props", .int 5)]) := by
  have hwritten : Json.write .compact 0 (.ofFields [("props", .int 5)]) =
      .ok "\x7b\"props\":5\x7d".toList := by decide +kernel
  exact readBody_of_write (by simp [Atom.offence?]) hwritten (by decide +kernel)

theorem outcome_spoil : begun.outcome spoil =
    (begun.withStore (begun.store.withRoot spoiledRoot)).answerTree [] true := by
  have hcall : Call.ofRequest? "PATCH" "/nodes/root" = some (.patchNode "root") := by decide
  have hupdate : Tree.update begun.store.root (.text "root") (.ofFields [("props", .int 5)]) =
      .ok (some spoiledRoot) := by cbv
  have hstore : begun.store.update (.text "root") (.ofFields [("props", .int 5)]) =
      (.ok true, begun.store.withRoot spoiledRoot) := by
    rw [Store.update, hupdate]
    rfl
  rw [outcome_patchNode (q := spoil) hcall readBody_spoil]
  show begun.answerEdit (begun.store.update (.text "root") (.ofFields [("props", .int 5)])) = _
  rw [hstore]
  rfl

theorem status_spoil (hstorable : spoiledRoot.Storable) : (begun.serve spoil).1.status = 200 := by
  have hselected : (begun.withStore (begun.store.withRoot spoiledRoot)).store.SelectsText :=
    .inl rfl
  obtain ⟨digest, -, hsent⟩ := sent?_answerTree hstorable hselected [] []
    true (by decide) (List.forall_mem_nil _) (List.forall_mem_nil _)
  rw [← outcome_spoil] at hsent
  exact (serve_of_sent? hsent).1

/-- The request is granted, but the page can not be loaded from its document any more. -/
theorem not_survives_spoiled :
    (begun.serve spoil).1.status = 200 ∧ Reached (begun.serve spoil).2 ∧
      ¬ (begun.serve spoil).2.Survives := by
  have hreached : Reached (begun.serve spoil).2 := .serve (.reset ..) spoil
  have hroot : (begun.serve spoil).2.store.root = spoiledRoot := by
    rw [serve_session, outcome_spoil, answerTree_session]
    rfl
  have hplain : spoiledRoot.Plain := by
    rw [← hroot]
    exact hreached.kept.plain
  refine ⟨status_spoil (hplain.storable (by decide)), hreached, fun h => ?_⟩
  have hfits := fits_of_survives hreached.kept h
  rw [hroot] at hfits
  have hobject : (Value.int 5).isObject = true :=
    (hfits.presentable _ (Tree.self_mem_nodes _)).props (.int 5) rfl
  cases hobject

end Session

end PageBuilder
