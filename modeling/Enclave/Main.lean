import Enclave.Command.Help
import Enclave.Command.Run
import Std.Async.DNS
import Std.Async.TCP
import Std.Async.Timer

/-!
# Enclave.Main

The command line: files, connections and texts of the system it runs on.
-/

namespace Enclave

namespace Host

open Std.Async Std.Net

/-- A cause with its number, which some calls give as a negative one. -/
def describe (code : UInt32) (text : String) : String :=
  let code := if code < 0x80000000 then code else 0 - code
  s!"{text.capitalize} (os error {code})"

def message (e : IO.Error) : String :=
  match e with
  | .alreadyExists _ code text | .inappropriateType _ code text | .noFileOrDirectory _ code text
  | .permissionDenied _ code text | .resourceExhausted _ code text | .noSuchThing _ code text
  | .invalidArgument _ code text | .otherError code text | .resourceVanished code text
  | .unsupportedOperation code text | .hardwareFault code text | .timeExpired code text =>
    describe code text
  | e => toString e

def read (path : String) : IO Reading := do
  try
    let full := (← IO.currentDir) / path
    if (← full.metadata).type == .dir then return .directory
    match String.fromUTF8? (← IO.FS.readBinFile full) with
    | some text => return .text text
    | none => return .unreadable FileError.notText.message
  catch
    | .noFileOrDirectory _ _ _ => return .missing
    | e => return .unreadable (message e)

/-- What a directory holds, down to a depth. Nothing is known of what cannot be read. -/
def fileTree : Nat → String → IO FileTree
  | 0, _ => return .directory []
  | depth + 1, path => do
    let listed ← try ((← IO.currentDir) / path).readDir catch _ => pure #[]
    let entries ← listed.toList.mapM fun e => do
      let found ← match (← e.path.symlinkMetadata).type with
        | .file => pure FileTree.file
        | .dir => fileTree depth (Path.join path e.fileName)
        | _ => pure .other
      return (FileName.ofText e.fileName, found)
    return .directory entries

def scan (path : String) : IO Scan := do
  try
    if (← ((← IO.currentDir) / path).metadata).type == .dir then
      return .directory ((← fileTree Discovery.maxDepth path).walk (.ofText path))
    else return .notADirectory
  catch
    | .noFileOrDirectory _ _ _ => return .missing
    | e => return .unreadable (message e)

def attempt (path : String) (action : IO Unit) : IO (Except SaveError Unit) := do
  try
    action
    return .ok ()
  catch e => return .error ⟨path, message e⟩

def ensureDirectory (path : String) : IO Unit := do
  try IO.FS.createDir path
  catch e => unless ← ((← IO.currentDir) / path).isDir do throw e

def ensureAlong : List String → IO Unit
  | [] => return ()
  | path :: above => do
    if path.isEmpty then return ()
    try ensureDirectory path
    catch
      | .noFileOrDirectory _ _ _ =>
        ensureAlong above
        ensureDirectory path
      | e => throw e

def save (dir path text : String) : IO (Except SaveError Unit) := do
  match ← attempt dir (ensureAlong (Path.ancestors dir)) with
  | .ok () => attempt path (IO.FS.writeFile path text)
  | .error e => return .error e

def files : FileAccess IO where
  read := read
  scan := scan
  present path := do ((← IO.currentDir) / path).pathExists
  save := save

def within {α : Type} [Inhabited α] (seconds : Nat) (x : Async α) : Async α :=
  Async.race x do
    sleep (.ofNat (1000 * seconds))
    throw (.timeExpired 110 "Connection timed out")

def socketAddress (port : UInt16) : IPAddr → SocketAddress
  | .v4 addr => .v4 ⟨addr, port⟩
  | .v6 addr => .v6 ⟨addr, port⟩

def address (e : Endpoint) : Async SocketAddress := do
  let found ← DNS.getAddrInfo e.host (toString e.port) none
  match found.toList.head? with
  | some addr => return socketAddress e.port addr
  | none => throw (.userError "host did not resolve")

/-- Receives until there is a frame or there never will be one. -/
partial def receive (client : TCP.Socket.Client) (seconds : Nat) (bytes : ByteArray) :
    Async (Except ChannelError ByteArray) := do
  match Frame.read bytes with
  | .ok (reply, _) => return .ok reply
  | .error .cutShort =>
    match ← within seconds (client.recv? 65536) with
    | some more => receive client seconds (bytes ++ more)
    | none => return .error (.frame .cutShort)
  | .error e => return .error (.frame e)

def exchange (e : Endpoint) (seconds : Nat) (payload : ByteArray) :
    IO (Except ChannelError ByteArray) := do
  match Frame.write payload with
  | .error cause => return .error (.frame cause)
  | .ok frame =>
    try
      Async.block do
        let client ← TCP.Socket.Client.mk
        within seconds (client.connect (← address e))
        within seconds (client.send frame)
        receive client seconds .empty
    catch cause => return .error (.connection (message cause))

end Host

end Enclave

open Enclave in
def main (args : List String) : IO UInt32 := do
  match Arguments.read args with
  | .error e =>
    IO.eprint s!"error: {e.message}\n\nFor more information, try '--help'.\n"
    return 2
  | .ok (.help topic) =>
    IO.print (Help.text topic)
    return 0
  | .ok .version =>
    IO.print Help.version
    return 0
  | .ok (.run invocation) =>
    let cwd := toString (← IO.currentDir)
    let done ← Command.run Host.files Host.exchange cwd invocation
    IO.eprint done.errors
    IO.print done.output
    return done.exitCode.toUInt32
