import Enclave.Channel.Endpoint
import Enclave.Channel.Frame
import Enclave.Report.Digest

/-!
# Enclave.Channel.Exchange

Sending an outcome and taking the reply: one frame each way.
-/

namespace Enclave

inductive ChannelError where
  /-- The connection failed, in the words of the system. -/
  | connection (cause : String)
  | frame (cause : Frame.Error)
deriving DecidableEq, Repr

def ChannelError.message : ChannelError → String
  | .connection cause => cause
  | .frame e => e.message

inductive SendError where
  | tooLarge (size : Nat)
  | channel (endpoint : String) (cause : ChannelError)
deriving DecidableEq, Repr

namespace SendError

def message : SendError → String
  | .tooLarge size => s!"frame of {size} bytes exceeds the {Frame.maxPayload} byte limit"
  | .channel endpoint cause => s!"channel {endpoint}: {cause.message}"

def chain (e : SendError) : List String :=
  match e with
  | .tooLarge _ => [e.message]
  | .channel _ cause => [e.message, cause.message]

end SendError

namespace Outcome

/-- Sends the outcome to an endpoint; `exchange` takes a payload there and brings the reply. -/
def send {m : Type → Type} [Monad m] (o : Outcome) (endpoint : String)
    (exchange : ByteArray → m (Except ChannelError ByteArray)) :
    m (Except SendError ByteArray) := do
  let payload := o.encoded.toUTF8
  if Frame.maxPayload < payload.size then return .error (.tooLarge payload.size)
  else return (← exchange payload).mapError (.channel endpoint)

end Outcome

/-- What stands at an endpoint: nothing, or a peer that answers each request with the same bytes. -/
inductive Peer where
  | absent
  | replying (bytes : ByteArray)

namespace Peer

/-- Takes a payload to the peer; the state is what it has received. -/
def exchange (peer : Peer) (payload : ByteArray) :
    StateM (Option ByteArray) (Except ChannelError ByteArray) := do
  match peer with
  | .absent => return .error (.connection "Network is unreachable (os error 101)")
  | .replying bytes =>
    set (some payload)
    match Frame.read bytes with
    | .ok (reply, _) => return .ok reply
    | .error e => return .error (.frame e)

end Peer

end Enclave
