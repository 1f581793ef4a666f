import PageBuilder.Action.Basic

/-!
Exchanges with other services: the requests that are sent and the replies that come. Replies come
from a script, one for each request; when it has ended, nothing can be reached.
-/

namespace PageBuilder

/-- How sending a request fails. -/
inductive SendFailure where
  | connect
  | readTimeout
  | connectTimeout
  | protocol
  | redirects
  | transport
  | url
  | runtime
  deriving DecidableEq

namespace SendFailure

/-- What a failure is called when nothing else is said of it. -/
def name : SendFailure → String
  | connect => "ConnectError"
  | readTimeout => "ReadTimeout"
  | connectTimeout => "ConnectTimeout"
  | protocol => "RemoteProtocolError"
  | redirects => "TooManyRedirects"
  | transport => "HTTPError"
  | url => "InvalidURL"
  | runtime => "RuntimeError"

def all : List SendFailure :=
  [connect, readTimeout, connectTimeout, protocol, redirects, transport, url, runtime]

/-- Whether the exchange itself failed, and not the attempt to begin it. -/
def isTransport : SendFailure → Bool
  | url => false
  | runtime => false
  | _ => true

end SendFailure

inductive Reply where
  | response (status : Int) (body : List UInt8)
  | failure (kind : SendFailure) (message : String)

structure Request where
  method : Method
  url : String
  headers : List (String × String)
  timeout : Value
  content : Option String

/-- What is sent for a webhook; only a request that reads has no content. -/
def Request.ofWebhook (hook : Webhook) (timeout : Value) (content : Option String) : Request :=
  ⟨hook.method, hook.url, [("Content-Type", "application/json")], timeout, content⟩

/-- The reply to the next request, and the replies that are left. -/
def nextReply : List Reply → Reply × List Reply
  | [] => (.failure .connect "no scripted reply", [])
  | reply :: rest => (reply, rest)

end PageBuilder
