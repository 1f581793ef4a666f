import PageBuilder.Value.Equality

/-!
Issues: what is reported of documents, actions and requests, instead of refusing to answer.
-/

namespace PageBuilder

inductive IssueCode where
  | actionInvalid
  | actionTypeUnknown
  | actionConfigInvalid
  | actionsInvalid
  | actionIdDuplicate
  | storeMissing
  | localContextInvalid
  | responseInvalid
  | requestFailed
  | actionFailed
  | mappingMiss
  | nodeInvalid
  | nodeIdInvalid
  | nodeIdDuplicate
  | nodeTypeUnknown
  | rootNotPage
  | pageNotRoot
  | nodePropsMissing
  | nodePropsInvalid
  | nodeStyleInvalid
  | nodeLabelInvalid
  | nodeEventsInvalid
  | nodeChildrenMissing
  | nodeChildrenInvalid
  | leafHasChildren
  | nodeValueInvalid
  | documentJsonInvalid
  | documentRootMissing
  | documentVersionInvalid
  | internalError
  | requestValueInvalid
  | sessionContextInvalid
  | nodeNotFound
  | requestInvalid
  | directionInvalid
  | moveTargetInvalid
  | moveIndexInvalid
  | selectionInvalid
  | actionNotFound
  deriving DecidableEq

def IssueCode.text : IssueCode → String
  | actionInvalid => "ACTION_INVALID"
  | actionTypeUnknown => "ACTION_TYPE_UNKNOWN"
  | actionConfigInvalid => "ACTION_CONFIG_INVALID"
  | actionsInvalid => "ACTIONS_INVALID"
  | actionIdDuplicate => "ACTION_ID_DUPLICATE"
  | storeMissing => "EXEC_DEPS_MISSING"
  | localContextInvalid => "EXEC_CTX_INVALID"
  | responseInvalid => "WEBHOOK_RESPONSE_INVALID"
  | requestFailed => "WEBHOOK_REQUEST_FAILED"
  | actionFailed => "ACTION_FAILED"
  | mappingMiss => "WEBHOOK_MAPPING_MISS"
  | nodeInvalid => "NODE_INVALID"
  | nodeIdInvalid => "NODE_ID_INVALID"
  | nodeIdDuplicate => "NODE_ID_DUPLICATE"
  | nodeTypeUnknown => "NODE_TYPE_UNKNOWN"
  | rootNotPage => "ROOT_NOT_PAGE"
  | pageNotRoot => "PAGE_NOT_ROOT"
  | nodePropsMissing => "NODE_PROPS_MISSING"
  | nodePropsInvalid => "NODE_PROPS_INVALID"
  | nodeStyleInvalid => "NODE_STYLE_INVALID"
  | nodeLabelInvalid => "NODE_LABEL_INVALID"
  | nodeEventsInvalid => "NODE_EVENTS_INVALID"
  | nodeChildrenMissing => "NODE_CHILDREN_MISSING"
  | nodeChildrenInvalid => "NODE_CHILDREN_INVALID"
  | leafHasChildren => "LEAF_HAS_CHILDREN"
  | nodeValueInvalid => "NODE_VALUE_INVALID"
  | documentJsonInvalid => "DOC_JSON_INVALID"
  | documentRootMissing => "DOC_ROOT_MISSING"
  | documentVersionInvalid => "DOC_VERSION_INVALID"
  | internalError => "INTERNAL_ERROR"
  | requestValueInvalid => "REQUEST_VALUE_INVALID"
  | sessionContextInvalid => "SESSION_CONTEXT_INVALID"
  | nodeNotFound => "NODE_NOT_FOUND"
  | requestInvalid => "REQUEST_INVALID"
  | directionInvalid => "DIRECTION_INVALID"
  | moveTargetInvalid => "MOVE_TARGET_INVALID"
  | moveIndexInvalid => "MOVE_INDEX_INVALID"
  | selectionInvalid => "SELECTION_INVALID"
  | actionNotFound => "ACTION_NOT_FOUND"

structure Issue where
  code : IssueCode
  message : String
  path : Option String
  detail : Value := .null

/-- An object with the given fields. -/
def Value.ofFields (fields : List (String × Value)) : Value :=
  .object (fields.map fun (name, v) => (.text name, v))

def Issue.toValue (issue : Issue) : Value :=
  .ofFields [
    ("code", .text issue.code.text),
    ("message", .text issue.message),
    ("path", issue.path.elim .null .text),
    ("detail", issue.detail)]

def Issue.listValue (issues : List Issue) : Value := .list (issues.map Issue.toValue)

end PageBuilder
