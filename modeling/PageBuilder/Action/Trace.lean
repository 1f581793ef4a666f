import PageBuilder.Action.Exchange
import PageBuilder.Issue

/-!
Traces: everything that running actions leaves behind besides the data context.
-/

namespace PageBuilder

inductive NoticeKind where
  | log
  | alert
  deriving DecidableEq

def NoticeKind.text : NoticeKind → String
  | log => "log"
  | alert => "alert"

structure Notice where
  kind : NoticeKind
  actionId : String
  message : Value

/-- A request that was answered with JSON. -/
structure Delivery where
  actionId : String
  url : String
  method : Method
  status : Int

/-- Lists in the order in which their entries came up. -/
structure Trace where
  errors : List Issue := []
  warnings : List Issue := []
  notices : List Notice := []
  stateKeys : List String := []
  deliveries : List Delivery := []
  alerts : List Value := []
  requests : List Request := []

namespace Trace

def append (s t : Trace) : Trace where
  errors := s.errors ++ t.errors
  warnings := s.warnings ++ t.warnings
  notices := s.notices ++ t.notices
  stateKeys := s.stateKeys ++ t.stateKeys
  deliveries := s.deliveries ++ t.deliveries
  alerts := s.alerts ++ t.alerts
  requests := s.requests ++ t.requests

instance : Append Trace := ⟨append⟩

def ok (t : Trace) : Bool := t.errors.isEmpty

end Trace

def Notice.toValue (n : Notice) : Value :=
  .ofFields [("kind", .text n.kind.text), ("action_id", .text n.actionId), ("message", n.message)]

def Delivery.toValue (d : Delivery) : Value :=
  .ofFields [
    ("action_id", .text d.actionId),
    ("url", .text d.url),
    ("method", .text d.method.text),
    ("status", .int d.status)]

def Trace.effects (t : Trace) : Value :=
  .ofFields [
    ("state_keys", .list (t.stateKeys.map .text)),
    ("webhooks", .list (t.deliveries.map Delivery.toValue))]

end PageBuilder
