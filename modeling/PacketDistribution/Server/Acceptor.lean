/-
PacketDistribution.Server.Acceptor — `TcpServer` of `central_server/main.cpp`
as far as it accepts connections: `do_accept` with its completion handler,
`setup_new_connection` and `cleanup_task`.

A completion handler and a clean-up pass are one step each. A new socket has
the next number. Which of the fallible calls of `setup_new_connection` throw
is part of the completion that brings the socket; an exception leaves the
handler at once, before its second `do_accept()`.

`setUp`, `failed` and `removed` are history variables: the sockets whose
set-up returned, the sockets whose set-up threw, and the sockets whose
session a clean-up pass has removed.
-/
import PacketDistribution.Lib.Machine

namespace PacketDistribution.Server

open PacketDistribution.Lib

/-- The handlers `setup_new_connection` registers. -/
inductive DefaultHandler where
  | encryptionHandlerServer
  | processEcho
  deriving DecidableEq, Repr

/-- `DispatcherSession`: its socket and its default handlers. -/
structure DispatcherSession where
  socket : Nat
  handlers : List DefaultHandler
  deriving DecidableEq, Repr

/-- `register_default_handler`. -/
def DispatcherSession.registerDefaultHandler (s : DispatcherSession) (h : DefaultHandler) :
    DispatcherSession :=
  { s with handlers := s.handlers ++ [h] }

/-- The fallible calls of `setup_new_connection`, in order. -/
inductive SetupCall where
  | makeSession
  | registerEncryptionHandler
  | registerProcessEcho
  | emplaceBack
  deriving DecidableEq, Repr

/-- The server. `outstanding` counts the `async_accept` operations whose
handler has not run yet; `closed` are the sockets whose session answers
`is_closed()` with true. -/
structure TcpServer where
  outstanding : Nat
  connections : List DispatcherSession
  closed : List Nat
  nextSocket : Nat
  setUp : List Nat
  failed : List Nat
  removed : List Nat
  deriving DecidableEq, Repr

namespace TcpServer

/-- `do_accept`. -/
def doAccept (s : TcpServer) : TcpServer :=
  { s with outstanding := s.outstanding + 1 }

/-- The constructor. -/
def constructed : TcpServer :=
  doAccept ⟨0, [], [], 0, [], [], []⟩

/-- A call that throws if it is one of `throws`. -/
def attempt (throws : SetupCall → Bool) (call : SetupCall) : Except SetupCall Unit :=
  if throws call then .error call else .ok ()

/-- `setup_new_connection`: the new contents of `connections_`, or the call
that threw. The session is local until it is in the vector. -/
def setupNewConnection (throws : SetupCall → Bool) (socket : Nat)
    (connections : List DispatcherSession) : Except SetupCall (List DispatcherSession) := do
  attempt throws .makeSession
  let session : DispatcherSession := ⟨socket, []⟩
  attempt throws .registerEncryptionHandler
  let session := session.registerDefaultHandler .encryptionHandlerServer
  attempt throws .registerProcessEcho
  let session := session.registerDefaultHandler .processEcho
  attempt throws .emplaceBack
  return connections ++ [session]

/-- What an accept completes with: an error code, or a socket, whose set-up
will throw at `throws`. -/
inductive Completion where
  | error
  | socket (throws : SetupCall → Bool)

/-- The completion handler of `do_accept`. -/
def onAccept (s : TcpServer) : Completion → TcpServer
  | .error => s.doAccept
  | .socket throws =>
      match setupNewConnection throws s.nextSocket s.connections with
      | .error _ => { s with nextSocket := s.nextSocket + 1, failed := s.failed ++ [s.nextSocket] }
      | .ok connections =>
          doAccept { s with
            connections := connections
            nextSocket := s.nextSocket + 1
            setUp := s.setUp ++ [s.nextSocket] }

/-- The sockets `connections_` has an entry for. -/
def sockets (s : TcpServer) : List Nat := s.connections.map DispatcherSession.socket

/-- The session has closed. -/
def isClosed (s : TcpServer) (x : DispatcherSession) : Bool := s.closed.contains x.socket

/-- One pass of `cleanup_task`. -/
def cleanup (s : TcpServer) : TcpServer :=
  { s with
    connections := s.connections.filter fun x => !s.isClosed x
    removed := s.removed ++ (s.connections.filter s.isClosed).map DispatcherSession.socket }

end TcpServer

open TcpServer

/-- One step: an accept completes, a session closes, or a clean-up pass. -/
inductive Action where
  | complete (c : Completion)
  | close (socket : Nat)
  | cleanup

/-- The step function. Only an outstanding accept completes, and only a
session in `connections_` closes. -/
def TcpServer.step (s : TcpServer) : Action → Option TcpServer
  | .complete c =>
      if s.outstanding = 0 then none
      else some ({ s with outstanding := s.outstanding - 1 }.onAccept c)
  | .close socket =>
      if socket ∈ s.sockets then some { s with closed := s.closed ++ [socket] } else none
  | .cleanup => some s.cleanup

/-- The machine of the server. -/
def acceptor : Machine TcpServer Action where
  init s := s = constructed
  step := TcpServer.step

end PacketDistribution.Server
