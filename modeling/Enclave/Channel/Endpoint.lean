/-!
# Enclave.Channel.Endpoint

Where outcomes are sent: a host and a port, written `tcp://host:port`. A host that holds a colon is
written between brackets.
-/

namespace Enclave

structure Endpoint where
  host : String
  port : UInt16
deriving DecidableEq, Repr

structure EndpointError where
  text : String
deriving DecidableEq, Repr

def EndpointError.message (e : EndpointError) : String :=
  s!"invalid endpoint '{e.text}': expected tcp://host:port"

namespace Endpoint

def scheme : List Char := "tcp://".toList

def splitLastColon (cs : List Char) : Option (List Char × List Char) :=
  let after := cs.reverse.takeWhile (· != ':')
  match cs.reverse.dropWhile (· != ':') with
  | [] => none
  | _ :: before => some (before.reverse, after.reverse)

def bareHost (cs : List Char) : List Char :=
  ((cs.dropWhile (· == '[')).reverse.dropWhile (· == ']')).reverse

/-- A port: decimal digits after an optional plus sign. -/
def readPort (cs : List Char) : Option UInt16 :=
  let digits :=
    match cs with
    | '+' :: ds => ds
    | ds => ds
  if digits.isEmpty || !digits.all Char.isDigit then none
  else
    let n := digits.foldl (fun n c => n * 10 + (c.toNat - 48)) 0
    if n < 65536 then some (.ofNat n) else none

def read? (s : String) : Option Endpoint := do
  let rest ← if scheme.isPrefixOf s.toList then some (s.toList.drop scheme.length) else none
  let (host, port) ← splitLastColon rest
  let host := bareHost host
  if host.isEmpty then none
  else return ⟨String.ofList host, ← readPort port⟩

def read (s : String) : Except EndpointError Endpoint :=
  match read? s with
  | some e => .ok e
  | none => .error ⟨s⟩

def render (e : Endpoint) : String :=
  if e.host.toList.contains ':' then s!"tcp://[{e.host}]:{e.port}" else s!"tcp://{e.host}:{e.port}"

end Endpoint

end Enclave
