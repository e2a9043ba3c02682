import PeerAccess.CommandLine
import PeerAccess.Listener
import Std.Async.TCP

/-!
# The program

Arguments, environment and sockets around `Command.start` and `Listener.serving`.
-/

open PeerAccess PeerAccess.Http
open Std.Async (Async)

namespace PeerAccess.Program

def usageText : String :=
  "usage: peerguard check [--rule ACTION:PATTERN]... [--allow PATTERN]... [--deny PATTERN]...\n" ++
  "                       [--default-allow] ADDRESS...\n" ++
  "       peerguard serve [--rule ACTION:PATTERN]... [--allow PATTERN]... [--deny PATTERN]...\n" ++
  "                       [--default-allow] [--listen ADDRESS:PORT]\n" ++
  "       peerguard --version\n" ++
  "Rules are evaluated in order; the first matching rule decides.\n"

/-! ## Sockets -/

abbrev Socket := Std.Async.TCP.Socket.Client

abbrev Server := Std.Async.TCP.Socket.Server

def toV4 (a : Ipv4) : Std.Net.IPv4Addr := ⟨⟨a.octets.toArray, by simp [a.length_octets]⟩⟩

def toV6 (a : Ipv6) : Std.Net.IPv6Addr := ⟨⟨a.segments.toArray, by simp [a.length_segments]⟩⟩

def toSocketAddress : Endpoint → Std.Net.SocketAddress
  | .v4 a p => .v4 ⟨toV4 a, p⟩
  | .v6 a _ p => .v6 ⟨toV6 a, p⟩

def ofSocketAddress : Std.Net.SocketAddress → Endpoint
  | .v4 s => .v4 ⟨s.addr.octets.toList, by simp⟩ s.port
  | .v6 s => .v6 ⟨s.addr.segments.toList, by simp⟩ 0 s.port

def causeOf : IO.Error → SystemError
  | .resourceBusy .. => .addressInUse
  | e => .other (toString e)

/-! ## Serving -/

def octetsOf (received : ByteArray) : List Char := received.toList.map fun b => Char.ofNat b.toNat

/-- Answers one client until either side ends the connection. -/
partial def converse (l : Listener Unit) (socket : Socket) (c : Connection) : Async Unit := do
  match ← socket.recv? 65536 with
  | none => return
  | some received =>
    let reaction := c.receive l.serve (octetsOf received)
    for r in reaction.replies do
      socket.send r.text.toUTF8
    if reaction.connection.isOpen then converse l socket reaction.connection
    else socket.shutdown

/-- A client's failure ends its connection and no other. -/
def attend (l : Listener Unit) (socket : Socket) : Async Unit := do
  try
    let peer := ofSocketAddress (← socket.getPeerName)
    converse l socket { peer }
  catch _ => return

partial def acceptAll (l : Listener Unit) (server : Server) : Async Unit := do
  let socket ← server.accept
  Std.Async.background (attend l socket)
  acceptAll l server

def bind (e : Endpoint) : IO Server := do
  let server ← Std.Async.TCP.Socket.Server.mk
  server.bind (toSocketAddress e)
  server.listen 1024
  return server

def finish (code : UInt32) (out err : String) : IO UInt32 := do
  (← IO.getStdout).putStr out
  (← IO.getStderr).putStr err
  return code

def log (lines : List String) : IO Unit := do
  let stream ← IO.getStderr
  lines.forM stream.putStrLn

/-- Listens until the process is stopped. -/
def listen (e : Endpoint) (p : Policy) : IO UInt32 := do
  match ← (bind e).toBaseIO with
  | .ok server =>
    log [(Event.listening (ofSocketAddress (← server.getSockName))).line]
    (acceptAll (Listener.serving p) server).block
    return 0
  | .error cause =>
    let error := ServeError.cannotBind e (causeOf cause)
    finish 2 "" (Command.failureText error.fullMessage)

def carryOut : Command.Effect → IO UInt32
  | .finish code out err => finish code out err
  | .usage => finish 2 "" usageText
  | .help => finish 0 usageText ""
  | .listen e p => listen e p

/-- The variables of this process. -/
def environment : IO Lookup := do
  let values ← Variable.all.mapM fun v => return (v, ← IO.getEnv v.name)
  return fun v => (values.lookup v).join

end PeerAccess.Program

def main (args : List String) : IO UInt32 := do
  let run := Command.start args (← PeerAccess.Program.environment)
  PeerAccess.Program.log run.log
  PeerAccess.Program.carryOut run.effect
