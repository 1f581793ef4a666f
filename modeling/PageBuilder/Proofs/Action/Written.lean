import PageBuilder.Proofs.Action.Frame
import PageBuilder.Proofs.Action.Planned
import PageBuilder.Proofs.Template.Readable

/-!
What templates read of keys that were written: the value that was written, whatever the key looks
like and whatever else is in the context, until the key is written again.

* `Course`: a list of actions with all that it is run on, and where the run stands before each of
  them;
* `Course.Writes`: an entry writes a value under a key;
* `Course.get?_before`: a key that no entry tells of between two places leads to the same at both;
* `Course.get?_of_writes`: a key leads to what an entry has written under it;
* `Store.reads_written`: what references to a written key, and to other ones, stand for.
-/

namespace PageBuilder

/-! ## Writing -/

namespace Step

open Fields (get?)

section Targets

variable {path : String} {payload : Value} {replies : List Reply}

theorem assign_of_found {v : Value} (hv : v.isMissing = false) (context : Fields) (key : String) :
    assign context key v = Fields.set context key v := by
  rw [assign, hv]
  rfl

/-- Targets tell of no other keys than theirs. -/
theorem applyTargets_stateKeys_subset (targets : List (String × String)) (context : Fields) :
    (applyTargets path payload replies targets context).trace.stateKeys ⊆
      targets.map Prod.fst := by
  induction targets generalizing context with
  | nil => exact List.nil_subset _
  | cons target rest ih =>
    obtain ⟨key, source⟩ := target
    unfold applyTargets
    split
    · exact List.nil_subset _
    · split
      · exact List.subset_cons_of_subset _ (ih _)
      · exact List.cons_subset_cons _ (ih _)

/-- A target that is found, and that comes before all that can not be followed, is taken over. -/
theorem get?_applyTargets {done rest : List (String × String)} {key source : String} {v : Value}
    (hdone : ∀ t ∈ done, ∃ w, Path.lookup payload t.2 = .ok w)
    (hfound : Path.lookup payload source = .ok v) (hv : v.isMissing = false)
    (hlast : key ∉ rest.map Prod.fst) (context : Fields) :
    get? (applyTargets path payload replies (done ++ (key, source) :: rest) context).context key =
      some v := by
  induction done generalizing context with
  | nil =>
    rw [List.nil_append]
    simp only [applyTargets, hfound, hv, Bool.false_eq_true, if_false, assign_of_found hv]
    have hframed := applyTargets_framed path payload (Fields.set context key v) replies rest
    have hkept := hframed.same (.text key) fun name hname heq => by
      cases heq
      exact hlast (applyTargets_stateKeys_subset rest _ hname)
    exact hkept.trans (Fields.get?_set context key v)
  | cons target done ih =>
    obtain ⟨other, otherSource⟩ := target
    rw [List.forall_mem_cons] at hdone
    obtain ⟨w, hw⟩ := hdone.1
    simp only [List.cons_append, applyTargets, hw]
    split
    · exact ih hdone.2 context
    · exact ih hdone.2 (assign context other w)

end Targets

end Step

/-! ## Courses -/

/-- A list of actions with all that it is run on. -/
structure Course where
  env : Surroundings
  locals : Fields
  entries : List Value
  context : Fields
  replies : List Reply

namespace Course

open Fields (get?)

/-- Where the run stands before the entry at a place. -/
def before (c : Course) (i : Nat) : Step :=
  Step.ofEntries c.env c.locals 0 (c.entries.take i) c.context c.replies

/-- What the entry at a place does. -/
def entry (c : Course) (i : Nat) (raw : Value) : Step :=
  Step.ofEntry c.env c.locals i raw (c.before i).context (c.before i).replies

/-- What the templates of the entry at a place are evaluated in: the data context, with the local
one before it. -/
def seen (c : Course) (i : Nat) : Value := .object (Fields.merge (c.before i).context c.locals)

/-- No entry between two places tells of a key. -/
def Untold (c : Course) (i m : Nat) (key : String) : Prop :=
  ∀ l raw, i ≤ l → l < m → c.entries[l]? = some raw → key ∉ (c.entry l raw).trace.stateKeys

/-- An entry writes a value under a key: it sets that state, or it takes the value, or all, from the
response to its request. -/
inductive Writes (c : Course) (i : Nat) (raw : Value) (key : String) (v : Value) : Prop where
  | state {id : String} {value : Value}
      (parsed : Action.parse (Plan.entryPath i) raw = .ok (.setState id key value))
      (evaluated : Template.evaluate (c.seen i) value = .ok v)
  | mapped {hook : Webhook} {text : Option String} {status : Int} {body : List UInt8}
      {left : List Reply} {payload : Value} {done rest : List (String × String)} {source : String}
      (parsed : Action.parse (Plan.entryPath i) raw = .ok (.webhook hook))
      (written : Step.content (c.seen i) (c.before i).context hook = .ok text)
      (answered : (c.before i).replies = .response status body :: left)
      (read : Json.valueOfOctets .strict body = .ok payload)
      (targets : hook.mapping = done ++ (key, source) :: rest)
      (followed : ∀ t ∈ done, ∃ w, Path.lookup payload t.2 = .ok w)
      (found : Path.lookup payload source = .ok v)
      (last : key ∉ rest.map Prod.fst)
  | whole {hook : Webhook} {text : Option String} {status : Int} {body : List UInt8}
      {left : List Reply}
      (parsed : Action.parse (Plan.entryPath i) raw = .ok (.webhook hook))
      (written : Step.content (c.seen i) (c.before i).context hook = .ok text)
      (answered : (c.before i).replies = .response status body :: left)
      (read : Json.valueOfOctets .strict body = .ok v)
      (unmapped : hook.mapping = [])
      (named : key = Step.lastResultKey)

section Course

variable {c : Course} {i m : Nat} {raw v : Value} {key : String}

/-- A run ends where it stands behind its last entry. -/
theorem actions_eq (c : Course) :
    Run.actions c.env (.list c.entries) (.object c.locals) (.object c.context) c.replies =
      let last := c.before c.entries.length
      .ok ⟨.object last.context, last.replies, last.trace⟩ := by
  rw [Run.actions_list, before, List.take_length]

theorem before_succ_context (h : c.entries[i]? = some raw) :
    (c.before (i + 1)).context = (c.entry i raw).context := by
  obtain ⟨hi, rfl⟩ := List.getElem?_eq_some_iff.mp h
  rw [before, Step.ofEntries_take_succ c.env c.locals c.context c.replies hi]
  rfl

/-- An entry that does not tell of a key leaves it alone. -/
theorem get?_entry (h : key ∉ (c.entry i raw).trace.stateKeys) :
    get? (c.entry i raw).context key = get? (c.before i).context key := by
  refine (Step.ofEntry_framed _ _ c.env c.locals i raw).same (.text key) fun name hname heq => ?_
  cases heq
  exact h hname

/-- A key that no entry tells of between two places leads to the same at both. -/
theorem get?_before (hle : i ≤ m) (h : c.Untold i m key) :
    get? (c.before m).context key = get? (c.before i).context key := by
  induction hle with
  | refl => rfl
  | @step m hle ih =>
    rw [← ih fun l raw hil hlm => h l raw hil (Nat.lt_succ_of_lt hlm)]
    cases hraw : c.entries[m]? with
    | none =>
      -- There is no such entry: the run has ended before.
      have hlength : c.entries.length ≤ m := List.getElem?_eq_none_iff.mp hraw
      rw [before, before, List.take_of_length_le hlength,
        List.take_of_length_le (Nat.le_succ_of_le hlength)]
    | some raw =>
      rw [before_succ_context hraw, get?_entry (h m raw hle (Nat.lt_succ_self m) hraw)]

/-- A webhook that was answered with JSON does what is done with the payload. -/
theorem entry_context_of_answered {hook : Webhook} {text : Option String} {status : Int}
    {body : List UInt8} {left : List Reply} {payload : Value}
    (hparsed : Action.parse (Plan.entryPath i) raw = .ok (.webhook hook))
    (hwritten : Step.content (c.seen i) (c.before i).context hook = .ok text)
    (hanswered : (c.before i).replies = .response status body :: left)
    (hread : Json.valueOfOctets .strict body = .ok payload) :
    (c.entry i raw).context =
      (Step.applyPayload (Plan.entryPath i) hook payload (c.before i).context left).context := by
  rw [seen] at hwritten
  rw [entry, Step.ofEntry_of_parsed hparsed, Step.reported_context, Step.ofAction, Step.webhook]
  simp only [hwritten, hanswered, nextReply, Step.respond, hread]

/-- Behind an entry a key leads to what the entry has written under it. -/
theorem get?_of_writes (h : c.Writes i raw key v) (hv : v.isMissing = false) :
    get? (c.entry i raw).context key = some v := by
  cases h with
  | state parsed evaluated =>
    rw [entry, Step.ofEntry_of_parsed parsed, Step.reported_context, Step.ofAction, Step.setState]
    rw [seen] at evaluated
    simp only [evaluated, Step.assign_of_found hv]
    exact Fields.get?_set _ key v
  | mapped parsed written answered read targets followed found last =>
    rw [entry_context_of_answered parsed written answered read, Step.applyPayload,
      if_neg (by simp [targets]), targets]
    exact Step.get?_applyTargets followed found hv last _
  | whole parsed written answered read unmapped named =>
    rw [entry_context_of_answered parsed written answered read, Step.applyPayload,
      if_pos (by simp [unmapped]), named]
    simp only [Step.assign_of_found hv]
    exact Fields.get?_set _ _ v

end Course

end Course

/-! ## What is read -/

open Template (Nameable RefersTo Reads ReadsAlike)

/-- After a write, references to the key stand for the value, and those to other keys that there
were before stand for what they did. -/
structure Written (context context' : Value) (key : String) (v : Value) : Prop where
  reads : Reads context' key v
  others : ∀ other, Nameable other → other ≠ key → (context.get? other).isSome →
    ReadsAlike context context' other

section Written

variable {key : String} {v : Value}

/-- A key that is written in the data context is read under the local one, if that lacks it. -/
theorem written_assign (hkey : Nameable key) (hv : v.isMissing = false) (context : Fields)
    {locals : Fields} (hlocals : Fields.get? locals key = none) :
    Written (.object (Fields.merge context locals))
      (.object (Fields.merge (Step.assign context key v) locals)) key v := by
  rw [Step.assign_of_found hv]
  refine ⟨Template.reads_of_get? hkey ?_, fun other hother hne hsome => ?_⟩
  · rw [Fields.get?_merge_eq _ _ _ hlocals, Fields.get?_set]
  · refine Template.readsAlike_of_get? hother hsome (Fields.get?_merge_congr (.inl ?_))
    exact Fields.get?_set_of_ne context v hne

/-- A store in whose data context a value was set. -/
theorem Store.written_setContextValue (hkey : Nameable key) (hv : v.isMissing = false)
    {s t : Store} (h : s.setContextValue (.text key) v = (.ok (), t)) :
    Written s.context t.context key v := by
  unfold setContextValue at h
  cases hfields : fieldsOf s.context with
  | error f =>
    simp only [hfields] at h
    cases h
  | ok fields =>
    simp only [hfields, hv] at h
    cases h
    have hassign : Fields.set fields key v = Step.assign fields key v :=
      (Step.assign_of_found hv fields key).symm
    have hempty : Fields.get? [] key = none := rfl
    have hwritten := written_assign hkey hv fields hempty
    refine ⟨hassign ▸ hwritten.reads, fun other hother hne hsome => ?_⟩
    -- Only a context that is an object has other keys.
    cases hcontext : s.context with
    | object context =>
      rw [hcontext] at hfields hsome
      cases hfields
      exact hassign ▸ hwritten.others other hother hne hsome
    | _ =>
      rw [hcontext] at hsome
      cases hsome

/-- What references stand for at a later entry of a run in which a key was written. -/
theorem Course.reads_of_writes (hkey : Nameable key) (hv : v.isMissing = false) {c : Course}
    {i m : Nat} {raw : Value} (hraw : c.entries[i]? = some raw) (h : c.Writes i raw key v)
    (hlocals : Fields.get? c.locals key = none) (him : i < m) (huntold : c.Untold (i + 1) m key) :
    Reads (c.seen m) key v := by
  apply Template.reads_of_get? hkey
  rw [Fields.get?_merge_eq _ _ _ hlocals, get?_before him huntold, before_succ_context hraw,
    get?_of_writes h hv]

theorem Course.readsAlike_of_untold {c : Course} {i m : Nat} {other : String}
    (hother : Nameable other) (hle : i ≤ m) (hsome : ((c.seen i).get? other).isSome)
    (h : (Fields.get? c.locals other).isSome ∨ c.Untold i m other) :
    ReadsAlike (c.seen i) (c.seen m) other := by
  apply Template.readsAlike_of_get? hother hsome
  apply Fields.get?_merge_congr
  rcases h with hlocal | huntold
  · exact .inr hlocal
  · exact .inl (get?_before hle huntold)

/-- What was written under a key is what references to the key stand for, even where the key looks
like a path that leads elsewhere; and references to other keys stand for what they did. In a run
this holds at every entry behind the one that has written, until the key, or the other one, is
written again. A key that is local stands for the local value. -/
theorem Store.reads_written (hkey : Nameable key) (hv : v.isMissing = false) :
    (∀ s : Store, s.context.isObject → ∃ t, s.setContextValue (.text key) v = (.ok (), t)) ∧
    (∀ s t : Store, s.setContextValue (.text key) v = (.ok (), t) →
      Written s.context t.context key v) ∧
    (∀ context locals : Fields, Fields.get? locals key = none →
      Written (.object (Fields.merge context locals))
        (.object (Fields.merge (Step.assign context key v) locals)) key v) ∧
    ∀ (c : Course) (i m : Nat) (raw : Value), c.entries[i]? = some raw → c.Writes i raw key v →
      Fields.get? c.locals key = none → i < m → c.Untold (i + 1) m key →
        Reads (c.seen m) key v ∧
          ∀ other, Nameable other → ((c.seen i).get? other).isSome →
            (Fields.get? c.locals other).isSome ∨ c.Untold i m other →
              ReadsAlike (c.seen i) (c.seen m) other := by
  refine ⟨fun s hs => ?_, fun s t => written_setContextValue hkey hv,
    fun context locals => written_assign hkey hv context, ?_⟩
  · obtain ⟨fields, hfields⟩ := (Value.isObject_iff _).mp hs
    simp only [setContextValue, hfields, fieldsOf]
    exact ⟨_, rfl⟩
  · intro c i m raw hraw hwrites hlocals him huntold
    refine ⟨Course.reads_of_writes hkey hv hraw hwrites hlocals him huntold, ?_⟩
    exact fun other hother => Course.readsAlike_of_untold hother (Nat.le_of_lt him)

end Written

/-- A context in which `a.b` is a path to a number, and a run that sets a key of that name, takes
another one from a response and then reads the first. -/
def nested : Fields := [(.text "a", .ofFields [("b", .int 1)]), (.text "n", .int 2)]

def dotted : Course where
  env := ⟨.silent, .null⟩
  locals := [(.text "m", .int 3)]
  entries := [
    .ofFields [("type", .text "setState"),
      ("config", .ofFields [("key", .text "a.b"), ("value", .text "\x7b\x7b n \x7d\x7d")])],
    .ofFields [("type", .text "setState"),
      ("config", .ofFields [("key", .text "c"), ("value", .null)])],
    .ofFields [("type", .text "consoleLog"),
      ("config", .ofFields [("message", .text "\x7b\x7b a.b \x7d\x7d")])]]
  context := nested
  replies := []

theorem nameable_dotted : Nameable "a.b" :=
  ⟨by decide, List.all_eq_true.mp (by decide), by decide⟩

theorem refersTo_dotted : RefersTo "a.b" "\x7b\x7b a.b \x7d\x7d" :=
  ⟨[' '], [' '], List.all_eq_true.mp rfl, List.all_eq_true.mp rfl, rfl⟩

theorem writes_dotted : dotted.Writes 0 dotted.entries[0] "a.b" (.int 2) := by
  have hparsed : Action.parse (Plan.entryPath 0) dotted.entries[0] =
      .ok (.setState "" "a.b" (.text "\x7b\x7b n \x7d\x7d")) := rfl
  have hevaluated : Template.evaluate (dotted.seen 0) (.text "\x7b\x7b n \x7d\x7d") =
      .ok (.int 2) := by
    cbv
  exact .state hparsed hevaluated

theorem reads_written_dotted :
    Nameable "a.b" ∧ (Value.int 2).isMissing = false ∧
      RefersTo "a.b" "\x7b\x7b a.b \x7d\x7d" ∧
      Template.evaluate (.object nested) (.text "\x7b\x7b a.b \x7d\x7d") = .ok (.int 1) ∧
      (∃ t, (Store.start .null (.object nested)).setContextValue (.text "a.b") (.int 2) =
          (.ok (), t) ∧
        Template.evaluate t.context (.text "\x7b\x7b a.b \x7d\x7d") = .ok (.int 2)) ∧
      dotted.Writes 0 dotted.entries[0] "a.b" (.int 2) ∧
      Fields.get? dotted.locals "a.b" = none ∧ dotted.Untold 1 2 "a.b" ∧
      Template.evaluate (dotted.seen 2) (.text "\x7b\x7b a.b \x7d\x7d") = .ok (.int 2) := by
  have huntold : dotted.Untold 1 2 "a.b" := by
    intro l raw hle hlt hraw
    obtain rfl : l = 1 := by omega
    cases hraw
    decide +kernel
  obtain ⟨hdone, hset, -, hrun⟩ := Store.reads_written nameable_dotted (v := .int 2) rfl
  obtain ⟨t, ht⟩ := hdone (Store.start .null (.object nested)) rfl
  obtain ⟨hreads, -⟩ := hrun dotted 0 2 _ rfl writes_dotted rfl (by decide) huntold
  exact ⟨nameable_dotted, rfl, refersTo_dotted, by cbv,
    ⟨t, ht, (hset _ t ht).reads _ refersTo_dotted⟩, writes_dotted, rfl, huntold,
    hreads _ refersTo_dotted⟩

end PageBuilder
