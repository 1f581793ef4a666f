import PageBuilder.Action.Run
import PageBuilder.Proofs.Json.Number
import PageBuilder.Proofs.Results

/-!
The place of an entry in a list of actions, as it is told in the paths of issues.

* `Plan.place?_entryPath`: the place can be read off the path of an entry and all that is below it;
* `Plan.laterPath`: the path at a later place;
* `Action.parse_moved`: an action is parsed in the same way at every place, but for the path of what
  it is refused for.
-/

namespace PageBuilder

/-! ## Places -/

namespace Plan

/-- The place of an entry, and what follows it in a path. -/
def place? (path : String) : Option (Nat × String) :=
  match path.toList with
  | '$' :: '[' :: rest =>
    match Json.splitDigits rest with
    | (digits, ']' :: rest) => some (Nat.ofDigitChars 10 digits 0, String.ofList rest)
    | _ => none
  | _ => none

theorem place?_entryPath (index : Nat) (below : String) :
    place? (entryPath index ++ below) = some (index, below) := by
  have hlist : (entryPath index ++ below).toList =
      '$' :: '[' :: (Nat.toDigits 10 index ++ ']' :: below.toList) := by
    simp [entryPath]
  have hsplit : Json.splitDigits (Nat.toDigits 10 index ++ ']' :: below.toList) =
      (Nat.toDigits 10 index, ']' :: below.toList) :=
    Json.splitDigits_append (Json.allDigits_toDigits index) (.cons rfl _)
  unfold place?
  rw [hlist]
  simp only [hsplit, Nat.ofDigitChars_ten_toDigits, String.ofList_toList]

/-- Paths of different entries have nothing below in common. -/
theorem entryPath_append_inj {i j : Nat} {s t : String}
    (h : entryPath i ++ s = entryPath j ++ t) : i = j ∧ s = t := by
  have hplace := place?_entryPath i s
  rw [h, place?_entryPath] at hplace
  cases hplace
  exact ⟨rfl, rfl⟩

/-- The path for an entry that comes `n` places later; a path of no entry stays. -/
def laterPath (n : Nat) (path : String) : String :=
  match place? path with
  | some (index, below) => entryPath (index + n) ++ below
  | none => path

example : laterPath 3 "$[9].config.url" = "$[12].config.url" := by decide

end Plan

/-! ## Moving to another path -/

/-- A map of paths takes everything below one path to the same place below another. -/
def Moves (g : String → String) (p q : String) : Prop := ∀ s, g (p ++ s) = q ++ s

namespace Moves

variable {g : String → String} {p q : String}

theorem self (h : Moves g p q) : g p = q := by
  have := h ""
  rwa [String.append_empty, String.append_empty] at this

theorem append (h : Moves g p q) (s : String) : Moves g (p ++ s) (q ++ s) := by
  intro t
  rw [String.append_assoc, h, String.append_assoc]

end Moves

theorem Plan.moves_laterPath (n index : Nat) :
    Moves (laterPath n) (entryPath index) (entryPath (index + n)) := by
  intro s
  rw [laterPath, place?_entryPath]

def Refusal.moved (g : String → String) (r : Refusal) : Refusal := { r with path := g r.path }

def Issue.moved (g : String → String) (i : Issue) : Issue := { i with path := i.path.map g }

/-! ## Parsing -/

namespace Action

variable {g : String → String} {p q : String}

theorem parseId_moved (h : Moves g p q) (v : Value) :
    parseId q v = (parseId p v).mapError (·.moved g) := by
  unfold parseId
  split <;> simp [Refusal.moved, h ".id"]

theorem parseConfig_moved (h : Moves g p q) (v : Value) :
    parseConfig q v = (parseConfig p v).mapError (·.moved g) := by
  unfold parseConfig
  split <;> simp [Refusal.moved, h ".config"]

theorem parseMethod_moved (h : Moves g p q) (v : Value) :
    parseMethod q v = (parseMethod p v).mapError (·.moved g) := by
  unfold parseMethod
  split
  · rfl
  · split
    · split <;> simp [Refusal.moved, h ".method"]
    · simp [Refusal.moved, h ".method"]

theorem parseTargets_moved (h : Moves g p q) (fields : Fields) :
    parseTargets q fields = (parseTargets p fields).mapError (·.moved g) := by
  induction fields with
  | nil => rfl
  | cons field rest ih =>
    unfold parseTargets
    split
    · rename_i heq
      cases heq
    · simp [Refusal.moved, h.self]
    · rename_i key v rest' _ heq
      cases heq
      split
      · simp [Refusal.moved, h.append "." key]
      · rw [mapError_map, ih]
    · simp [Refusal.moved, h.self]

theorem parseMapping_moved (h : Moves g p q) (v : Value) :
    parseMapping q v = (parseMapping p v).mapError (·.moved g) := by
  unfold parseMapping
  split
  · rfl
  · rfl
  · exact parseTargets_moved h _
  · simp [Refusal.moved, h.self]

theorem parseWebhook_moved (h : Moves g p q) (id : String) (config : Fields) :
    parseWebhook id q config = (parseWebhook id p config).mapError (·.moved g) := by
  unfold parseWebhook
  split
  · simp [Refusal.moved, h ".url"]
  · rw [mapError_bind, parseMethod_moved h]
    refine congrArg _ (funext fun method => ?_)
    rw [mapError_bind, parseMapping_moved (h.append ".responseMapping")]
    rfl

theorem parseKind_moved (h : Moves g p q) (id : String) (config : Fields) (kind : ActionKind) :
    parseKind id q config kind = (parseKind id p config kind).mapError (·.moved g) := by
  cases kind with
  | setState =>
    unfold parseKind
    simp only
    split <;> simp [Refusal.moved, h ".key"]
  | consoleLog => rfl
  | alert => rfl
  | webhook =>
    unfold parseKind
    rw [mapError_map, parseWebhook_moved h]

/-- An action is parsed in the same way at every path, but for the path of a refusal. -/
theorem parse_moved (h : Moves g p q) (raw : Value) :
    parse q raw = (parse p raw).mapError (·.moved g) := by
  unfold parse
  split
  · simp [Refusal.moved, h.self]
  · simp only
    split
    · simp [Refusal.moved, h ".type"]
    · rw [mapError_bind, parseId_moved h]
      refine congrArg _ (funext fun id => ?_)
      rw [mapError_bind, parseConfig_moved h]
      refine congrArg _ (funext fun config => ?_)
      exact parseKind_moved (h.append ".config") id config _

/-- What an action is refused for is at its path or below. -/
theorem refusal_path {raw : Value} {r : Refusal} (h : parse p raw = .error r) :
    ∃ s, r.path = p ++ s := by
  have hmoves : Moves (p ++ ·) "" p := fun s => congrArg (p ++ ·) String.empty_append
  rw [parse_moved hmoves] at h
  cases hraw : parse "" raw with
  | ok action =>
    rw [hraw] at h
    cases h
  | error r' =>
    rw [hraw] at h
    cases h
    exact ⟨r'.path, rfl⟩

end Action

end PageBuilder
