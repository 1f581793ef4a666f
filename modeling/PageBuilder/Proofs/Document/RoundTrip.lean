import PageBuilder.Document.Transfer
import PageBuilder.Proofs.Document.Shape
import PageBuilder.Proofs.Json.RoundTrip

/-!
Documents that are written are loaded again.

* `load_of_complete`: a complete tree without errors is loaded as it is;
* `accept_exportText`: the text of a document loads the tree that it was written from.
-/

namespace PageBuilder.Document

open PageBuilder.Tree (nodes)
open Json (regular_indented)

/-! ## Loading -/

theorem load_of_checked (s : Store) (version : Value) {root : Value}
    (h : (Check.tree root).errors = []) : load s version root =
      (⟨true, [], checkVersion version ++ (Check.tree root).warnings, version⟩,
        s.replaceTree (shaped root)) := by
  unfold load
  simp only [h, List.isEmpty_nil, if_true]

theorem load_of_errors (s : Store) (version : Value) {root : Value}
    (h : (Check.tree root).errors ≠ []) : load s version root =
      (⟨false, (Check.tree root).errors, checkVersion version ++ (Check.tree root).warnings,
        version⟩, s) := by
  have herrors : (Check.tree root).errors.isEmpty = false := by simpa using h
  unfold load
  simp only [herrors, Bool.false_eq_true, if_false]

/-- A complete tree without errors is loaded as it is. -/
theorem load_of_complete (s : Store) (version : Value) {root : Value}
    (hchecked : (Check.tree root).errors = []) (hcomplete : ∀ n ∈ nodes root, Complete n) :
    load s version root =
      (⟨true, [], checkVersion version ++ (Check.tree root).warnings, version⟩,
        s.replaceTree root) := by
  rw [load_of_checked s version hchecked, shaped_eq_self root hcomplete]

theorem complete_of_checked {root : Value} (hchecked : (Check.tree root).errors = [])
    (hprops : ∀ n ∈ nodes root, (n.get? "props").isSome)
    (hlists : ∀ n ∈ nodes root, n.isContainer = true → n.childList?.isSome) :
    ∀ n ∈ nodes root, Complete n := by
  obtain ⟨-, after, hgranted⟩ := (Check.tree_errors_iff root).mp hchecked
  intro n hn
  refine ⟨?_, hlists n hn⟩
  obtain ⟨p, hp⟩ := Option.isSome_iff_exists.mp (hprops n hn)
  rw [Value.field_eq, hp, Option.getD_some]
  exact (hgranted.passable_of_mem n hn).presentable.props p hp

/-! ## Writing and loading -/

theorem storable_exported (usual : String) {s : Store} (version : String)
    (hroot : s.root.Storable) : (exported usual s (.text version)).Storable := by
  have hversion :
      (if (Value.text version).truthy then Value.text version else .text usual).Storable := by
    split <;> exact .atom rfl
  simp [exported, hversion, hroot]

/-- A source that is read as a document loads its tree. -/
theorem accept_of_source (target : Store) (source : Value) {version root : Value}
    (h : ofSource source = .ok (.ofFields [("version", version), ("root", root)])) :
    accept target source = load target version root := by
  unfold accept
  simp only [h]
  rfl

/-- The text of a document loads the tree that it was written from, for a tree of proper objects
that the check finds no error in and nothing to fill in. -/
theorem accept_exportText {s : Store} (target : Store) (usual version : String)
    (hplain : s.root.Plain) (hchecked : (Check.tree s.root).errors = [])
    (hprops : ∀ n ∈ nodes s.root, (n.get? "props").isSome)
    (hlists : ∀ n ∈ nodes s.root, n.isContainer = true → n.childList?.isSome) :
    ∃ text, exportText usual s (.text version) = .ok text ∧
      accept target (.text text) =
        (⟨true, [], (Check.tree s.root).warnings, .text (if version = "" then usual else version)⟩,
          ⟨s.root, target.context, .null⟩) := by
  have hcomplete := complete_of_checked hchecked hprops hlists
  have hroot := hplain.storable ((Check.tree_errors_iff s.root).mp hchecked).1
  obtain ⟨text, htext, hread⟩ := Json.valueOfText_text regular_indented
    (storable_exported usual version hroot) .strict
  refine ⟨text, htext, ?_⟩
  have hversion : (if (Value.text version).truthy then Value.text version else .text usual) =
      .text (if version = "" then usual else version) := by
    by_cases hempty : version = "" <;> simp [Value.truthy, Atom.truthy, hempty]
  rw [accept_of_source target (.text text) hread, hversion,
    load_of_complete target _ hchecked hcomplete]
  rfl

/-- A page with names and texts that have to be escaped, with empty parts, and with a large integer,
a fraction and a negative zero. -/
def album : Store :=
  ⟨.ofFields [
      ("id", .text "root"),
      ("type", .text "page"),
      ("props", .ofFields [("\"\n\u0001é", .list []), ("", .ofFields [])]),
      ("children", .list [.ofFields [
        ("type", .text "image"),
        ("props", .ofFields [
          ("width", .int 100000000000000000000000),
          ("ratio", .float (.ofDecimal false ⟨1, -1⟩)),
          ("shift", .float (.ofRank true 0))]),
        ("id", .text "a\\")]])],
    .null, .text "root"⟩

theorem plain_album : album.root.Plain := by
  simp [album]

theorem accept_exportText_album :
    album.root.Plain ∧ (Check.tree album.root).errors = [] ∧
      (∀ n ∈ nodes album.root, (n.get? "props").isSome) ∧
      (∀ n ∈ nodes album.root, n.isContainer = true → n.childList?.isSome) ∧
      ∃ text, exportText "1.0" album (.text "") = .ok text ∧
        accept (.start .null .null) (.text text) =
          (⟨true, [], (Check.tree album.root).warnings, .text "1.0"⟩,
            ⟨album.root, .object [], .null⟩) := by
  have hchecked : (Check.tree album.root).errors = [] :=
    List.isEmpty_iff.mp (by decide +kernel)
  have hprops : ∀ n ∈ nodes album.root, (n.get? "props").isSome := by decide +kernel
  have hlists : ∀ n ∈ nodes album.root, n.isContainer = true → n.childList?.isSome := by
    decide +kernel
  exact ⟨plain_album, hchecked, hprops, hlists,
    accept_exportText (.start .null .null) "1.0" "" plain_album hchecked hprops hlists⟩

end PageBuilder.Document
