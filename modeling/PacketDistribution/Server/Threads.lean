/-
PacketDistribution.Server.Threads — the threads of `main` of
`central_server/main.cpp`, all of which run one `io_context`.

The completion handler of `do_accept` and a pass of `cleanup_task` take one
statement at a time here, in any order with each other and with the handlers
of the sessions. A handler that is ready runs on whichever thread is free:
neither the acceptor nor the coroutine has a strand, and `connection_access`
is never locked.

An exception that leaves a handler leaves the `run()` below it, and with it
the function of the thread, which ends the process. A call of
`setup_new_connection` may throw, a handler of a session (`process_echo` and
`encryption_handler_server` do), and in `cleanup_task` the timer and the wait.
`cleanup_task` was spawned detached: whether its exception goes on to `run()`
or ends with the coroutine is for the library to say, and both are steps here.
An exception of a session's handler that the library keeps is a return.
`async_accept` and `is_closed()` are taken not to throw.
-/
import PacketDistribution.Server.Acceptor

namespace PacketDistribution.Server

open PacketDistribution.Lib
open TcpServer

/-- `kAdditionalThreads`. -/
def kAdditionalThreads : Nat := 7

/-- Where a thread stands: in `io_context.run()` between two handlers, before
a statement of one, or outside. The constructors of a set-up carry the local
socket and session. -/
inductive Thread where
  | run
  | makeSession (socket : Nat)
  | registerEncryptionHandler (session : DispatcherSession)
  | registerProcessEcho (session : DispatcherSession)
  | emplaceBack (session : DispatcherSession)
  | doAccept
  | eraseIf
  | asyncWait
  | sessionHandler
  | unwound
  | returned
  deriving DecidableEq, Repr

namespace Thread

/-- The thread is in the completion handler of `do_accept`. -/
def accepting : Thread → Bool
  | makeSession _ | registerEncryptionHandler _ | registerProcessEcho _ | emplaceBack _
  | doAccept => true
  | _ => false

/-- The thread is in `setup_new_connection`, at a call that may throw, with
this socket. -/
def setup : Thread → Option (SetupCall × Nat)
  | makeSession socket => some (.makeSession, socket)
  | registerEncryptionHandler session => some (.registerEncryptionHandler, session.socket)
  | registerProcessEcho session => some (.registerProcessEcho, session.socket)
  | emplaceBack session => some (.emplaceBack, session.socket)
  | _ => none

/-- The thread is in `cleanup_task`, where the wait it resumes from or the
next one may throw. -/
def cleaning : Thread → Bool
  | eraseIf | asyncWait => true
  | _ => false

/-- The next statement of the thread reads or writes `connections_`. -/
def accessesConnections : Thread → Bool
  | emplaceBack _ | eraseIf => true
  | _ => false

/-- The thread runs no handler. -/
def idle : Thread → Bool
  | run | returned => true
  | _ => false

end Thread

/-- The process. `resumptions` counts the resumptions of `cleanup_task` that
wait for a thread or for their timer, and `cleanupOver` says that an exception
has left the coroutine; `uncaught` is where the exception came from that has
left `run()`; `server.nextSocket` is the number of the next socket an accept
brings. -/
structure Process where
  threads : List Thread
  resumptions : Nat
  cleanupOver : Bool
  uncaught : Option Thread
  server : TcpServer
  deriving DecidableEq, Repr

namespace Process

/-- After the constructor of `TcpServer`, with `n` threads in `run()`. -/
def started (n : Nat) : Process :=
  ⟨List.replicate n .run, 1, false, none, constructed⟩

/-- `std::terminate` has been called. -/
def terminated (p : Process) : Bool := p.uncaught.isSome

/-- Thread `i` goes on at `t`. -/
def put (p : Process) (i : Nat) (t : Thread) : Process :=
  { p with threads := p.threads.set i t }

/-- The handlers a thread in `run()` may pick up. -/
inductive Handler where
  | acceptError
  | acceptSocket
  | cleanup
  | session
  deriving DecidableEq, Repr

/-- Thread `i` picks up a handler. Those of the sessions are ready at any
time; they use neither the acceptor nor `connections_`. -/
def pickUp (p : Process) (i : Nat) : Handler → Option Process
  | .acceptError =>
      if p.server.outstanding = 0 then none
      else some { p.put i .doAccept with
        server := { p.server with outstanding := p.server.outstanding - 1 } }
  | .acceptSocket =>
      if p.server.outstanding = 0 then none
      else some { p.put i (.makeSession p.server.nextSocket) with
        server := { p.server with
          outstanding := p.server.outstanding - 1
          nextSocket := p.server.nextSocket + 1 } }
  | .cleanup =>
      if p.resumptions = 0 then none
      else some { p.put i .eraseIf with resumptions := p.resumptions - 1 }
  | .session => some (p.put i .sessionHandler)

/-- Thread `i`, which stands at the given place, executes its next statement. -/
def execute (p : Process) (i : Nat) : Thread → Option Process
  | .makeSession socket => some (p.put i (.registerEncryptionHandler ⟨socket, []⟩))
  | .registerEncryptionHandler session =>
      some (p.put i (.registerProcessEcho (session.registerDefaultHandler .encryptionHandlerServer)))
  | .registerProcessEcho session =>
      some (p.put i (.emplaceBack (session.registerDefaultHandler .processEcho)))
  | .emplaceBack session =>
      some { p.put i .doAccept with
        server := { p.server with
          connections := p.server.connections ++ [session]
          setUp := p.server.setUp ++ [session.socket] } }
  | .doAccept => some { p.put i .run with server := p.server.doAccept }
  | .eraseIf => some { p.put i .asyncWait with server := p.server.cleanup }
  | .asyncWait => some { p.put i .run with resumptions := p.resumptions + 1 }
  | .sessionHandler => some (p.put i .run)
  | .run | .unwound | .returned => none

/-- What thread `i` throws at `t` leaves `run()`. -/
def unwind (p : Process) (i : Nat) (t : Thread) : Process :=
  { p.put i .unwound with uncaught := some t }

/-- The call thread `i` stands at throws, and nothing catches the exception. -/
def throw (p : Process) (i : Nat) : Thread → Option Process
  | .sessionHandler => some (p.unwind i .sessionHandler)
  | .eraseIf => some { p.unwind i .eraseIf with cleanupOver := true }
  | .asyncWait => some { p.unwind i .asyncWait with cleanupOver := true }
  | t => t.setup.map fun (_, socket) =>
      { p.unwind i t with server := { p.server with failed := p.server.failed ++ [socket] } }

/-- The call of `cleanup_task` that thread `i` stands at throws, and the
exception ends with the coroutine. -/
def discard (p : Process) (i : Nat) (t : Thread) : Option Process :=
  if t.cleaning then some { p.put i .run with cleanupOver := true } else none

/-- Nothing is left to run: no accept, no timer and no handler. -/
def outOfWork (p : Process) : Bool :=
  p.server.outstanding == 0 && p.resumptions == 0 && p.threads.all Thread.idle

/-- One step: a thread picks up a handler, executes a statement, leaves `run()`
by an exception or the clean-up by one that goes no further, or returns from
`run()`; or a session closes. -/
inductive Action where
  | pickUp (thread : Nat) (handler : Handler)
  | execute (thread : Nat)
  | throw (thread : Nat)
  | discard (thread : Nat)
  | leaveRun (thread : Nat)
  | close (socket : Nat)
  deriving DecidableEq, Repr

/-- The step of a process that has not ended. -/
def stepRunning (p : Process) : Action → Option Process
  | .pickUp i handler => if p.threads[i]? = some .run then p.pickUp i handler else none
  | .execute i => p.threads[i]?.bind (p.execute i)
  | .throw i => p.threads[i]?.bind (p.throw i)
  | .discard i => p.threads[i]?.bind (p.discard i)
  | .leaveRun i =>
      if p.threads[i]? = some .run ∧ p.outOfWork then some (p.put i .returned) else none
  | .close socket =>
      if socket ∈ p.server.sockets then
        some { p with server := { p.server with closed := p.server.closed ++ [socket] } }
      else none

/-- The step function. -/
def step (p : Process) (a : Action) : Option Process :=
  if p.terminated then none else p.stepRunning a

/-- Thread `i` is about to use `connections_`. -/
def Accesses (p : Process) (i : Nat) : Prop :=
  ∃ t, p.threads[i]? = some t ∧ t.accessesConnections

/-- Two threads are about to use `connections_`, and nothing orders them. -/
def Race (p : Process) : Prop :=
  ∃ i j, i ≠ j ∧ p.Accesses i ∧ p.Accesses j

end Process

/-- The machine of the process with `n` threads in `io_context.run()`. -/
def process (n : Nat) : Machine Process Process.Action where
  init p := p = Process.started n
  step := Process.step

end PacketDistribution.Server
