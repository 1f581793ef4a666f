import PageBuilder.Proofs.Value.SameJson

/-!
What the check of a value looks at, in order, and what it finds.

* `Value.sights`: the names and the atoms of a value, depth first, each name before its value;
* `Value.mem_sights_iff`: they are all that stands in the value, each with the way to it;
* `Spot.Sound`, `Spot.Told`: names and atoms that JSON has, and what is said of the others;
* `Value.finds_offence?`: a check of a value looks at them one after the other;
* `Value.exists_offends`, `Value.offence?_eq_none_iff_sound`: the offence of a value is told of the
  first of them that JSON does not have, and there is none if JSON has them all.
-/

namespace PageBuilder

/-! ## Ways -/

/-- A step down in a value: to what a name stands for, whatever the name is, or to the member at a
place. -/
inductive Edge where
  | field (k : Key)
  | item (index : Nat)

/-- What is looked at: the name of a field, or an atom. -/
inductive Spot where
  | name (k : Key)
  | atom (a : Atom)

/-- A name or an atom, and the way to it. The way to a name is that to its object. -/
structure Sight where
  way : List Edge
  spot : Spot

def Sight.under (e : Edge) (s : Sight) : Sight := { s with way := e :: s.way }

namespace Value

mutual

/-- All names and atoms in a value, depth first, each name just before what it stands for. -/
def sights : Value → List Sight
  | .atom a => [⟨[], .atom a⟩]
  | .list items => itemsSights 0 items
  | .tuple items => itemsSights 0 items
  | .object fields => fieldsSights fields
termination_by structural v => v

def itemsSights (index : Nat) : List Value → List Sight
  | [] => []
  | v :: rest => v.sights.map (Sight.under (.item index)) ++ itemsSights (index + 1) rest
termination_by structural vs => vs

def fieldsSights : List (Key × Value) → List Sight
  | [] => []
  | (k, v) :: rest =>
    ⟨[], .name k⟩ :: (v.sights.map (Sight.under (.field k)) ++ fieldsSights rest)
termination_by structural fields => fields

end

/-- What a way leads to. -/
inductive Leads : Value → List Edge → Value → Prop where
  | here (v : Value) : Leads v [] v
  | item {v u w : Value} {items : List Value} {index : Nat} {way : List Edge}
      (members : v.items? = some items) (place : items[index]? = some u) (rest : Leads u way w) :
      Leads v (.item index :: way) w
  | field {fields : Fields} {k : Key} {u w : Value} {way : List Edge} (mem : (k, u) ∈ fields)
      (rest : Leads u way w) : Leads (.object fields) (.field k :: way) w

end Value

open Value (Leads)

/-- An atom stands at the end of its way, and a name in the object at the end of its way. -/
inductive Sight.Stands (v : Value) : Sight → Prop where
  | atom {way : List Edge} {a : Atom} (leads : Leads v way (.atom a)) : Stands v ⟨way, .atom a⟩
  | name {way : List Edge} {fields : Fields} {f : Key × Value}
      (leads : Leads v way (.object fields)) (mem : f ∈ fields) : Stands v ⟨way, .name f.1⟩

namespace Value

/-! ## All that stands in a value -/

theorem sights_of_items? {v : Value} {items : List Value} (h : v.items? = some items) :
    v.sights = itemsSights 0 items := by
  rcases items?_eq_some_iff.mp h with rfl | rfl
  · rw [sights]
  · rw [sights]

theorem mem_itemsSights_iff {s : Sight} (items : List Value) (index : Nat) :
    s ∈ itemsSights index items ↔
      ∃ (i : Nat) (u : Value), items[i]? = some u ∧
        ∃ r ∈ u.sights, s = r.under (.item (index + i)) := by
  induction items generalizing index with
  | nil => simp [itemsSights]
  | cons v rest ih =>
    rw [itemsSights, List.mem_append, List.mem_map, ih]
    constructor
    · rintro (⟨r, hr, rfl⟩ | ⟨i, u, hu, r, hr, rfl⟩)
      · exact ⟨0, v, rfl, r, hr, rfl⟩
      · refine ⟨i + 1, u, hu, r, hr, ?_⟩
        rw [Nat.add_right_comm, Nat.add_assoc]
    · rintro ⟨i, u, hu, r, hr, rfl⟩
      cases i with
      | zero =>
        cases hu
        exact .inl ⟨r, hr, rfl⟩
      | succ i =>
        refine .inr ⟨i, u, hu, r, hr, ?_⟩
        rw [Nat.add_right_comm, Nat.add_assoc]

theorem mem_fieldsSights_iff {s : Sight} (fields : Fields) :
    s ∈ fieldsSights fields ↔
      ∃ f ∈ fields, s = ⟨[], .name f.1⟩ ∨ ∃ r ∈ f.2.sights, s = r.under (.field f.1) := by
  induction fields with
  | nil => simp [fieldsSights]
  | cons f rest ih =>
    rw [fieldsSights, List.mem_cons, List.mem_append, List.mem_map, ih]
    simp only [List.mem_cons, exists_eq_or_imp, or_assoc, eq_comm (a := s)]

theorem stands_of_mem_sights (v : Value) : ∀ s ∈ v.sights, s.Stands v := by
  induction v using parts_induction with
  | ofAtom a =>
    intro s hs
    rw [sights, List.mem_singleton] at hs
    subst hs
    exact .atom (.here _)
  | ofItems hitems ih =>
    intro s hs
    rw [sights_of_items? hitems, mem_itemsSights_iff] at hs
    obtain ⟨i, u, hu, r, hr, rfl⟩ := hs
    rw [Nat.zero_add]
    cases ih u (List.mem_of_getElem? hu) r hr with
    | atom hleads => exact .atom (.item hitems hu hleads)
    | name hleads hmem => exact .name (.item hitems hu hleads) hmem
  | ofFields fields ih =>
    intro s hs
    rw [sights, mem_fieldsSights_iff] at hs
    obtain ⟨f, hf, rfl | ⟨r, hr, rfl⟩⟩ := hs
    · exact .name (.here _) hf
    · cases ih f hf r hr with
      | atom hleads => exact .atom (.field hf hleads)
      | name hleads hmem => exact .name (.field hf hleads) hmem

theorem mem_sights_of_leads {v u : Value} {way : List Edge} (h : Leads v way u) {r : Sight}
    (hr : r ∈ u.sights) : ⟨way ++ r.way, r.spot⟩ ∈ v.sights := by
  induction h with
  | here v => exact hr
  | item hitems hu _ ih =>
    rw [sights_of_items? hitems, mem_itemsSights_iff]
    exact ⟨_, _, hu, _, ih hr, by rw [Nat.zero_add]; rfl⟩
  | field hmem _ ih =>
    rw [sights, mem_fieldsSights_iff]
    exact ⟨_, hmem, .inr ⟨_, ih hr, rfl⟩⟩

/-- What is looked at is all that stands in the value. -/
theorem mem_sights_iff (v : Value) (s : Sight) : s ∈ v.sights ↔ s.Stands v := by
  refine ⟨stands_of_mem_sights v s, fun h => ?_⟩
  cases h with
  | @atom way a hleads =>
    have hself : (⟨[], .atom a⟩ : Sight) ∈ (Value.atom a).sights := List.mem_singleton_self _
    have hmem := mem_sights_of_leads hleads hself
    rwa [List.append_nil] at hmem
  | @name way fields f hleads hf =>
    have hself : (⟨[], .name f.1⟩ : Sight) ∈ (Value.object fields).sights :=
      (mem_fieldsSights_iff fields).mpr ⟨f, hf, .inl rfl⟩
    have hmem := mem_sights_of_leads hleads hself
    rwa [List.append_nil] at hmem

end Value

/-! ## What is said -/

/-- The names and atoms that JSON has. -/
inductive Spot.Sound : Spot → Prop where
  | name (s : String) : Sound (.name (.text s))
  | null : Sound (.atom .null)
  | bool (b : Bool) : Sound (.atom (.bool b))
  | int (n : Int) : Sound (.atom (.int n))
  | float {x : Double} (finite : x.isFinite) : Sound (.atom (.float x))
  | text (s : String) : Sound (.atom (.text s))

/-- What is said of a name or an atom that JSON does not have, with the written path to it. -/
inductive Spot.Told (path : String) : Spot → String → Prop where
  | undefined : Told path (.atom .missing) ("Undefined value at " ++ path)
  | nan : Told path (.atom (.float .nan)) ("Non-finite float at " ++ path ++ ": " ++ "nan")
  | infinity :
      Told path (.atom (.float (.infinity false))) ("Non-finite float at " ++ path ++ ": " ++ "inf")
  | negative :
      Told path (.atom (.float (.infinity true))) ("Non-finite float at " ++ path ++ ": " ++ "-inf")
  | octets (bytes : List UInt8) :
      Told path (.atom (.octets bytes)) ("Unsupported type at " ++ path ++ ": " ++ "bytes")
  | foreign : Told path (.atom .foreign) ("Unsupported type at " ++ path ++ ": " ++ "Opaque")
  | name {k : Key} (notText : ∀ s, k ≠ .text s) :
      Told path (.name k) ("Unsupported key type at " ++ path ++ ": " ++ k.kindName)

theorem Spot.Told.not_sound {spot : Spot} {path text : String} (h : spot.Told path text) :
    ¬ spot.Sound := by
  intro hsound
  cases h with
  | name hnot =>
    cases hsound with
    | name s => exact hnot s rfl
  | nan | infinity | negative =>
    cases hsound with
    | float hfinite => cases hfinite
  | _ => cases hsound

namespace Offence

/-- The message of a cause, with the written path to it. -/
def Cause.textAt (path : String) : Cause → String
  | .undefined => "Undefined value at " ++ path
  | .keyKind name => "Unsupported key type at " ++ path ++ ": " ++ name
  | .notFinite x =>
    "Non-finite float at " ++ path ++ ": " ++ String.ofList (x.text Double.displayWords)
  | .kind name => "Unsupported type at " ++ path ++ ": " ++ name

def Step.edge : Step → Edge
  | field name => .field (.text name)
  | item index => .item index

/-- The written path: a mark for the whole value, and then each step. -/
theorem message_eq (o : Offence) :
    o.message = o.cause.textAt ("$" ++ String.join (o.way.map Step.text)) := by
  have hway : o.wayText = "$" ++ String.join (o.way.map Step.text) := by
    rw [wayText]
    generalize "$" = start
    induction o.way generalizing start with
    | nil => simp
    | cons s rest ih => simp [ih, String.append_assoc]
  rw [message, hway]
  cases o.cause <;> rfl

end Offence

/-- The outcome of a look at some sights, one after the other: an offence is that of the first one
that is not sound. -/
inductive Finds (sights : List Sight) : Option Offence → Prop where
  | nothing (sound : ∀ s ∈ sights, s.spot.Sound) : Finds sights none
  | first (before after : List Sight) {s : Sight} {o : Offence}
      (split : sights = before ++ s :: after) (sound : ∀ r ∈ before, r.spot.Sound)
      (way : s.way = o.way.map Offence.Step.edge)
      (told : ∀ path, s.spot.Told path (o.cause.textAt path)) : Finds sights (some o)

section Finds

variable {sights others : List Sight} {o? : Option Offence} {o : Offence}

theorem Finds.append (h : Finds sights none) (h' : Finds others o?) :
    Finds (sights ++ others) o? := by
  cases h with
  | nothing hsound =>
    cases h' with
    | nothing hsound' => exact .nothing (List.forall_mem_append.mpr ⟨hsound, hsound'⟩)
    | @first before after s o hsplit hsound' hway htold =>
      refine .first (sights ++ before) after ?_ (List.forall_mem_append.mpr ⟨hsound, hsound'⟩) hway
        htold
      rw [hsplit, List.append_assoc]

theorem Finds.append_of_some (h : Finds sights (some o)) (others : List Sight) :
    Finds (sights ++ others) (some o) := by
  cases h with
  | @first before after s o hsplit hsound hway htold =>
    refine .first before (after ++ others) ?_ hsound hway htold
    rw [hsplit, List.append_assoc, List.cons_append]

theorem Finds.under (h : Finds sights o?) (step : Offence.Step) :
    Finds (sights.map (Sight.under step.edge)) (o?.map (Offence.under step)) := by
  cases h with
  | nothing hsound => exact .nothing (List.forall_mem_map.mpr hsound)
  | @first before after s o hsplit hsound hway htold =>
    have hway' : (s.under step.edge).way = (o.under step).way.map Offence.Step.edge :=
      congrArg (step.edge :: ·) hway
    refine .first (before.map (Sight.under step.edge)) (after.map (Sight.under step.edge)) ?_
      (List.forall_mem_map.mpr hsound) hway' htold
    rw [hsplit, List.map_append, List.map_cons]

end Finds

namespace Value

theorem finds_atom (a : Atom) : Finds (atom a).sights (atom a).offence? := by
  have hsound : (Spot.atom a).Sound → Finds (atom a).sights none := fun h =>
    .nothing (List.forall_mem_singleton.mpr h)
  have htold : ∀ cause : Offence.Cause, (∀ path, (Spot.atom a).Told path (cause.textAt path)) →
      Finds (atom a).sights (some ⟨[], cause⟩) := fun cause h =>
    .first [] [] rfl (List.forall_mem_nil _) rfl h
  cases a with
  | missing => exact htold .undefined fun _ => .undefined
  | null => exact hsound .null
  | bool b => exact hsound (.bool b)
  | int n => exact hsound (.int n)
  | text s => exact hsound (.text s)
  | octets bytes => exact htold (.kind _) fun _ => .octets bytes
  | foreign => exact htold (.kind _) fun _ => .foreign
  | float x =>
    cases x with
    | nan => exact htold (.notFinite .nan) fun _ => .nan
    | infinity negative =>
      cases negative with
      | false => exact htold (.notFinite (.infinity false)) fun _ => .infinity
      | true => exact htold (.notFinite (.infinity true)) fun _ => .negative
    | finite negative rank => exact hsound (.float rfl)

theorem finds_items {items : List Value} (h : ∀ v ∈ items, Finds v.sights v.offence?)
    (index : Nat) : Finds (itemsSights index items) (itemsOffence? index items) := by
  induction items generalizing index with
  | nil => exact .nothing (List.forall_mem_nil _)
  | cons v rest ih =>
    obtain ⟨hv, hrest⟩ := List.forall_mem_cons.mp h
    have hfirst := hv.under (.item index)
    rw [itemsSights, itemsOffence?]
    cases ho : v.offence? with
    | none =>
      rw [ho] at hfirst
      exact hfirst.append (ih hrest (index + 1))
    | some o =>
      rw [ho] at hfirst
      exact hfirst.append_of_some _

theorem finds_fields {fields : Fields} (h : ∀ f ∈ fields, Finds f.2.sights f.2.offence?) :
    Finds (fieldsSights fields) (fieldsOffence? fields) := by
  induction fields with
  | nil => exact .nothing (List.forall_mem_nil _)
  | cons f rest ih =>
    obtain ⟨k, v⟩ := f
    obtain ⟨hv, hrest⟩ := List.forall_mem_cons.mp h
    rw [fieldsSights, ← List.singleton_append]
    by_cases hk : ∃ name, k = .text name
    · obtain ⟨name, rfl⟩ := hk
      have hname : Finds [⟨[], .name (.text name)⟩] none :=
        .nothing (List.forall_mem_singleton.mpr (.name name))
      have hbelow := hv.under (.field name)
      refine hname.append ?_
      rw [fieldsOffence?]
      cases ho : v.offence? with
      | none =>
        rw [ho] at hbelow
        exact hbelow.append (ih hrest)
      | some o =>
        rw [ho] at hbelow
        exact hbelow.append_of_some _
    · have hnot : ∀ name, k ≠ .text name := fun name hname => hk ⟨name, hname⟩
      have hname : Finds [⟨[], .name k⟩] (some ⟨[], .keyKind k.kindName⟩) :=
        .first [] [] rfl (List.forall_mem_nil _) rfl fun _ => .name hnot
      rw [fieldsOffence?]
      · exact hname.append_of_some _
      · exact hnot

theorem finds_offence? (v : Value) : Finds v.sights v.offence? := by
  induction v using parts_induction with
  | ofAtom a => exact finds_atom a
  | @ofItems v items hitems ih =>
    rw [sights_of_items? hitems]
    rcases items?_eq_some_iff.mp hitems with rfl | rfl
    · rw [offence?]
      exact finds_items ih 0
    · rw [offence?]
      exact finds_items ih 0
  | ofFields fields ih =>
    rw [sights, offence?]
    exact finds_fields ih

/-- An offence of a value, and the first name or atom in it that JSON does not have. -/
structure Offends (v : Value) (o : Offence) (s : Sight) : Prop where
  stands : s.Stands v
  first : ∃ before after, v.sights = before ++ s :: after ∧ ∀ r ∈ before, r.spot.Sound
  notSound : ¬ s.spot.Sound
  way : s.way = o.way.map Offence.Step.edge
  told : s.spot.Told ("$" ++ String.join (o.way.map Offence.Step.text)) o.message

theorem exists_offends {v : Value} {o : Offence} (h : v.offence? = some o) :
    ∃ s, v.Offends o s := by
  have hfinds := v.finds_offence?
  rw [h] at hfinds
  cases hfinds with
  | @first before after s _ hsplit hsound hway htold =>
    have hmem : s ∈ v.sights := by
      rw [hsplit]
      exact List.mem_append_right _ (List.mem_cons_self ..)
    refine ⟨s, (v.mem_sights_iff s).mp hmem, ⟨before, after, hsplit, hsound⟩,
      (htold "$").not_sound, hway, ?_⟩
    rw [o.message_eq]
    exact htold _

/-- No offence is found just if JSON has all names and atoms that stand in the value. -/
theorem offence?_eq_none_iff_sound (v : Value) :
    v.offence? = none ↔ ∀ s : Sight, s.Stands v → s.spot.Sound := by
  constructor
  · intro hnone s hs
    have hfinds := v.finds_offence?
    rw [hnone] at hfinds
    cases hfinds with
    | nothing hsound => exact hsound s ((v.mem_sights_iff s).mpr hs)
  · intro hsound
    cases ho : v.offence? with
    | none => rfl
    | some o =>
      obtain ⟨s, hs⟩ := exists_offends ho
      exact absurd (hsound s hs.stands) hs.notSound

end Value

end PageBuilder
