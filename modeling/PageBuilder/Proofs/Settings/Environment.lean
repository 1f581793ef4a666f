import PageBuilder.Settings
import PageBuilder.Proofs.Text.Trims

/-!
What a file of assignments adds to the environment.

* `Environment.Assigns`: what it is for a line to give a name a value;
* `Environment.get?_addLines`: a variable has its old value, or else the first one that a line gives
  it;
* `Environment.addLines_filter`: lines for a name that is defined already change nothing;
* `Environment.addFile_first_wins`: so it is for the file, whatever its lines for a name are after
  the first one.
-/

namespace PageBuilder.Environment

open Text (Trims isBlank)

variable {env : Environment} {line : List Char} {name value : String}

/-! ## One line -/

/-- What is left of a text without the blanks at its ends, then without the double quotes there,
and then without the single quotes. -/
def Unquotes (s t : List Char) : Prop :=
  ∃ bare inner, Trims isBlank s bare ∧ Trims isDoubleQuote bare inner ∧ Trims isSingleQuote inner t

theorem unquotes_iff {s t : List Char} :
    Unquotes s t ↔
      t = Text.trimBoth isSingleQuote (Text.trimBoth isDoubleQuote (Text.trim s)) := by
  simp only [Unquotes, Text.trims_iff, exists_and_left, exists_eq_left, Text.trim]

/-- The line is no comment, and its first mark stands between the name, which is not empty, and
the value. -/
def Assigns (line : List Char) (name value : String) : Prop :=
  ∃ whole left right, Trims isBlank line whole ∧ whole ≠ [] ∧ whole.head? ≠ some '#' ∧
    whole = left ++ '=' :: right ∧ '=' ∉ left ∧
      Trims isBlank left name.toList ∧ name ≠ "" ∧ Unquotes right value.toList

theorem assigns_of_assignment? (h : assignment? line = some (name, value)) :
    Assigns line name value := by
  unfold assignment? at h
  split at h
  · cases h
  · cases h
  · rename_i hempty hcomment
    split at h
    · cases h
    · rename_i left right hcut
      obtain ⟨hmark, hwhole⟩ := Text.cut?_eq_some_iff.mp hcut
      dsimp only at h
      split at h
      · cases h
      · rename_i hname
        cases h
        refine ⟨_, left, right, Text.trims_iff.mpr rfl, hempty, ?_, hwhole, hmark,
          Text.trims_iff.mpr String.toList_ofList, ?_, unquotes_iff.mpr String.toList_ofList⟩
        · intro hhead
          obtain ⟨rest, hrest⟩ := List.head?_eq_some_iff.mp hhead
          exact hcomment rest hrest
        · intro hnil
          rw [String.ofList_eq_empty_iff] at hnil
          exact hname (List.isEmpty_iff.mpr hnil)

theorem assignment?_of_assigns (h : Assigns line name value) :
    assignment? line = some (name, value) := by
  obtain ⟨whole, left, right, hline, hempty, hcomment, hwhole, hmark, hname, hne, hvalue⟩ := h
  have hcut : Text.cut? '=' whole = some (left, right) :=
    Text.cut?_eq_some_iff.mpr ⟨hmark, hwhole⟩
  rw [Text.trims_iff, ← Text.trim] at hline hname
  rw [unquotes_iff] at hvalue
  have hnonempty : ¬ (Text.trim left).isEmpty = true := by
    rwa [← hname, List.isEmpty_iff, String.toList_eq_nil_iff]
  unfold assignment?
  rw [← hline]
  split
  · exact absurd rfl hempty
  · exact absurd rfl hcomment
  · rw [hcut]
    dsimp only
    rw [if_neg hnonempty, ← hname, ← hvalue, String.ofList_toList, String.ofList_toList]

theorem assignment?_eq_some_iff :
    assignment? line = some (name, value) ↔ Assigns line name value :=
  ⟨assigns_of_assignment?, assignment?_of_assigns⟩

/-- The value that a line gives a name. -/
def assigned? (name : String) (line : List Char) : Option String :=
  (assignment? line).bind fun (new, value) => if new = name then some value else none

theorem assigned?_eq_some_iff : assigned? name line = some value ↔ Assigns line name value := by
  rw [← assignment?_eq_some_iff, assigned?, Option.bind_eq_some_iff]
  constructor
  · rintro ⟨⟨new, given⟩, hline, hgiven⟩
    obtain ⟨hnew, heq⟩ := Option.ite_none_right_eq_some.mp hgiven
    cases heq
    rw [hline, hnew]
  · intro hline
    exact ⟨(name, value), hline, if_pos rfl⟩

def AssignsTo (line : List Char) (name : String) : Prop := ∃ value, Assigns line name value

theorem assigned?_isSome_iff : (assigned? name line).isSome ↔ AssignsTo line name := by
  rw [Option.isSome_iff_exists]
  exact exists_congr fun _ => assigned?_eq_some_iff

instance (line : List Char) (name : String) : Decidable (AssignsTo line name) :=
  decidable_of_iff _ assigned?_isSome_iff

/-! ## All lines -/

/-- A new variable is added behind the others, and what is there already is not touched. -/
theorem get?_addNew (env : Environment) (name new value : String) :
    (env.addNew new value).get? name =
      (env.get? name).or (if new = name then some value else none) := by
  unfold addNew
  by_cases hname : new = name
  · subst hname
    rw [if_pos rfl]
    split
    · rename_i hdefined
      rw [Option.or_of_isSome hdefined]
    · rw [get?, List.lookup_append, List.lookup_cons_self, ← get?]
  · have hother : [(new, value)].lookup name = none := by
      rw [List.lookup_cons, beq_false_of_ne (Ne.symm hname), List.lookup_nil]
    rw [if_neg hname, Option.or_none]
    split
    · rfl
    · rw [get?, List.lookup_append, hother, Option.or_none, ← get?]

/-- A variable has its old value, or else the first one that a line gives it. -/
theorem get?_addLines (env : Environment) (lines : List (List Char)) (name : String) :
    (env.addLines lines).get? name = (env.get? name).or (lines.findSome? (assigned? name)) := by
  induction lines generalizing env with
  | nil => rw [List.findSome?_nil, Option.or_none]; rfl
  | cons line lines ih =>
    rw [addLines, List.foldl_cons, ← addLines, ih, List.findSome?_cons, assigned?]
    cases assignment? line with
    | none => rfl
    | some pair =>
      rw [get?_addNew, Option.or_assoc, Option.bind_some]
      dsimp only
      split <;> rfl

theorem addLines_append (env : Environment) (before after : List (List Char)) :
    env.addLines (before ++ after) = (env.addLines before).addLines after :=
  List.foldl_append

/-- Where a name is defined already, the lines for it change nothing. -/
theorem addLines_filter {lines : List (List Char)} (hdefined : (env.get? name).isSome) :
    env.addLines (lines.filter fun line => ¬ AssignsTo line name) = env.addLines lines := by
  induction lines generalizing env with
  | nil => rfl
  | cons line lines ih =>
    by_cases hline : AssignsTo line name
    · obtain ⟨value, hvalue⟩ := hline
      have hsame : env.addLines [line] = env := by
        rw [addLines, List.foldl_cons, assignment?_of_assigns hvalue]
        exact if_pos hdefined
      rw [List.filter_cons_of_neg (by simpa using ⟨value, hvalue⟩), ih hdefined,
        ← List.singleton_append, addLines_append, hsame]
    · have hkept : ((env.addLines [line]).get? name).isSome := by
        rw [get?_addLines, Option.isSome_or, hdefined, Bool.true_or]
      rw [List.filter_cons_of_pos (by simpa using hline), ← List.singleton_append,
        addLines_append, ih hkept, ← addLines_append, List.singleton_append]

/-- The first one of the lines for the name gives it the value. -/
def FirstAssigns (lines : List (List Char)) (name value : String) : Prop :=
  ∃ before line after, lines = before ++ line :: after ∧ Assigns line name value ∧
    ∀ earlier ∈ before, ¬ AssignsTo earlier name

theorem findSome?_assigned?_eq_some_iff {lines : List (List Char)} :
    lines.findSome? (assigned? name) = some value ↔ FirstAssigns lines name value := by
  simp only [List.findSome?_eq_some_iff, FirstAssigns, assigned?_eq_some_iff,
    ← assigned?_isSome_iff, Option.not_isSome_iff_eq_none]

theorem findSome?_assigned?_isSome_iff {lines : List (List Char)} :
    (lines.findSome? (assigned? name)).isSome ↔ ∃ line ∈ lines, AssignsTo line name := by
  simp only [List.findSome?_isSome_iff, assigned?_isSome_iff]

/-! ## A file -/

/-- The two lists begin with the same lines, one of which is for the name, and after these they
differ in no other lines than such. -/
def SameButLater (name : String) (lines others : List (List Char)) : Prop :=
  ∃ before rest rest', lines = before ++ rest ∧ others = before ++ rest' ∧
    (∃ line ∈ before, AssignsTo line name) ∧
      (rest.filter fun line => ¬ AssignsTo line name) =
        rest'.filter fun line => ¬ AssignsTo line name

theorem addFile_eq (env : Environment) (text : String) :
    env.addFile (some text) = env.addLines (Text.lines text.toList) := by
  rw [addFile, Text.lines_unifyNewlines]

/-- A file leaves the variables that there are. Of the other names it defines those that some line
is for, and the first such line decides on the value; what later lines give the name does not
matter. -/
theorem addFile_first_wins (env : Environment) (text : String) (name : String) :
    let lines := Text.lines text.toList
    let result := env.addFile (some text)
    (∀ value, env.get? name = some value → result.get? name = some value) ∧
      (env.get? name = none →
        ((result.get? name).isSome ↔ ∃ line ∈ lines, AssignsTo line name) ∧
          ∀ value, result.get? name = some value ↔ FirstAssigns lines name value) ∧
      ∀ other : String, SameButLater name lines (Text.lines other.toList) →
        env.addFile (some other) = result := by
  intro lines result
  have hresult : result = env.addLines lines := addFile_eq env text
  have hget : result.get? name = (env.get? name).or (lines.findSome? (assigned? name)) := by
    rw [hresult, get?_addLines]
  refine ⟨fun value hvalue => ?_, fun hnone => ?_, ?_⟩
  · rw [hget, hvalue, Option.some_or]
  · rw [hget, hnone, Option.none_or]
    exact ⟨findSome?_assigned?_isSome_iff, fun value => findSome?_assigned?_eq_some_iff⟩
  · rintro other ⟨before, rest, rest', hlines, hother, hbefore, hsame⟩
    have hdefined : ((env.addLines before).get? name).isSome := by
      rw [get?_addLines, Option.isSome_or, findSome?_assigned?_isSome_iff.mpr hbefore,
        Bool.or_true]
    rw [hresult, hlines, addFile_eq, hother, addLines_append, addLines_append,
      ← addLines_filter hdefined, ← hsame, addLines_filter hdefined]

/-- A file with three lines for the title, and one with only the first of them. -/
def siteFile : String := "# site\r\n HOME = /srv\nTITLE = \"'a=b' # c\"\u2028TITLE=\nTITLE='d'\n"
def shortSiteFile : String := "# site\n HOME = /srv\nTITLE = \"'a=b' # c\"\n"

theorem addFile_first_wins_site :
    let result := addFile [("HOME", "/root")] (some siteFile)
    result.get? "HOME" = some "/root" ∧ result.get? "TITLE" = some "a=b' # c" ∧
      addFile [("HOME", "/root")] (some shortSiteFile) = result := by
  obtain ⟨hhome, -, -⟩ := addFile_first_wins [("HOME", "/root")] siteFile "HOME"
  obtain ⟨-, htitle, hlater⟩ := addFile_first_wins [("HOME", "/root")] siteFile "TITLE"
  have hfirst : FirstAssigns (Text.lines siteFile.toList) "TITLE" "a=b' # c" :=
    findSome?_assigned?_eq_some_iff.mp (by decide +kernel)
  refine ⟨hhome _ (by decide), ((htitle (by decide)).2 _).mpr hfirst, hlater _ ?_⟩
  refine ⟨Text.lines shortSiteFile.toList, ["TITLE=".toList, "TITLE='d'".toList], [], ?_⟩
  decide +kernel

end PageBuilder.Environment
