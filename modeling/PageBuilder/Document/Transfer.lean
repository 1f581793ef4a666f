import PageBuilder.Document.Check
import PageBuilder.Document.Shape
import PageBuilder.Json.Reader
import PageBuilder.Store

/-!
Documents: page trees with a version, as they are stored and loaded. Loading a document changes
nothing unless the whole document is accepted.
-/

namespace PageBuilder.Document

/-! ## Export -/

/-- A document of the tree; a version that is empty or missing is the usual one. -/
def exported (usual : String) (s : Store) (version : Value) : Value :=
  .ofFields [
    ("version", if version.truthy then version else .text usual),
    ("root", s.root)]

def exportText (usual : String) (s : Store) (version : Value) :
    Except Json.WriteFault String :=
  Json.text .indented (exported usual s version)

/-! ## Import -/

/-- What is said of a document that was to be loaded. -/
structure Import where
  ok : Bool
  errors : List Issue
  warnings : List Issue
  version : Value

/-- The document in a source: a text, octets, or a value that is a document already. -/
def ofSource : Value → Except Json.ReadFault Value
  | .text s => Json.valueOfText .strict s
  | .octets bytes =>
    match Text.Utf8.decode bytes with
    | .error f => .error (.undecodable .utf8 f)
    | .ok s => Json.valueOfText .strict (String.ofList s)
  | v => .ok v

def Import.refused (issue : Issue) : Import := ⟨false, [issue], [], .null⟩

def unreadable (f : Json.ReadFault) : Issue :=
  ⟨.documentJsonInvalid, "Invalid JSON: " ++ f.message, some "$", .null⟩

def rootMissing : Issue :=
  ⟨.documentRootMissing, "Invalid schema file: root missing", some "root", .null⟩

def checkVersion (version : Value) : List Issue :=
  if version.isNull || version.isText then []
  else [⟨.documentVersionInvalid, "version should be string", some "version", .null⟩]

/-- Loads a tree that is found to have no errors. -/
def load (s : Store) (version root : Value) : Import × Store :=
  let found := Check.tree root
  let warnings := checkVersion version ++ found.warnings
  if found.errors.isEmpty then (⟨true, [], warnings, version⟩, s.replaceTree (shaped root))
  else (⟨false, found.errors, warnings, version⟩, s)

/-- Loads the document in a source. -/
def accept (s : Store) (source : Value) : Import × Store :=
  match ofSource source with
  | .error f => (.refused (unreadable f), s)
  | .ok document =>
    match document.fields? with
    | none => (.refused rootMissing, s)
    | some fields =>
      match Fields.get? fields "root" with
      | none => (.refused rootMissing, s)
      | some root => load s (Fields.field fields "version") root

end PageBuilder.Document
