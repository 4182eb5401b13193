/-
PacketDistribution.Session.Connection — one client session connected to one
server session, as a machine.

The rules of the session library are the ones the program relies on: each
direction is a FIFO channel that loses nothing; a packet is sealed with the
cipher installed when `send_packet` is called and opened with the cipher
installed at the receiver when it arrives; several threads run the
`io_context`, so between any two steps any running call may execute its next
statement and any packet at the head of a channel may arrive.

A packet opened in another mode than it was sealed in is unreadable and
reaches no handler. A packet opened correctly starts the handler registered
for it (`setup_new_connection` at the server, `main` at the client) or waits
for the coroutine's `await_packet`.

The log is a history variable: no step reads it.
-/
import PacketDistribution.Lib.Machine
import PacketDistribution.Session.KeyExchange

namespace PacketDistribution.Session

open PacketDistribution.Lib
open PacketDistribution.Packets

variable {Byte Secret Seed Digest : Type}

/-- The two ends of a connection. -/
inductive End where
  | client
  | server
  deriving DecidableEq, Repr

/-- A packet on the wire and the cipher it was sealed with, `none` for
plaintext. -/
structure Sealed (Byte Digest : Type) where
  mode : Option (AES256 Byte Digest)
  packet : Packet Byte
  deriving DecidableEq

/-- What a step leaves in the log. -/
inductive Event (Byte Digest : Type) where
  | sent (by_ : End) (m : Sealed Byte Digest)
  | arrived (at_ : End) (m : Sealed Byte Digest) (opened : Option (AES256 Byte Digest))
  | installed (at_ : End) (e : AES256 Byte Digest)
  | destroyed (at_ : End)
  | failed (at_ : End) (e : Failure)
  deriving DecidableEq

/-- One end: its cipher, the channel towards it and the `process_echo` calls
running at it. -/
structure Endpoint (Byte Digest : Type) where
  cipher : Option (AES256 Byte Digest)
  incoming : List (Sealed Byte Digest)
  echoes : List EchoPc

/-- A connection. `inbox` holds the responses that arrived at the client and
wait for `await_packet`; `handlers` the running calls of
`encryption_handler_server`. -/
structure Connection (Byte Secret Seed Digest : Type) where
  coroutine : Option (ClientPc Byte Secret Digest)
  inbox : List (DHKeyExchangeResponsePacket Byte)
  handlers : List (ServerPc Byte Secret Seed Digest)
  client : Endpoint Byte Digest
  server : Endpoint Byte Digest
  log : List (Event Byte Digest)

namespace Connection

/-- The end `at_`. -/
def endpoint (s : Connection Byte Secret Seed Digest) : End → Endpoint Byte Digest
  | .client => s.client
  | .server => s.server

def note (s : Connection Byte Secret Seed Digest) (ev : Event Byte Digest) :
    Connection Byte Secret Seed Digest :=
  { s with log := s.log ++ [ev] }

/-- `send_packet`: seal with the sender's cipher, append to the channel
towards the other end. -/
def sendPacket (s : Connection Byte Secret Seed Digest) (p : Packet Byte) :
    End → Connection Byte Secret Seed Digest
  | .client =>
      { s with
        server := { s.server with incoming := s.server.incoming ++ [⟨s.client.cipher, p⟩] }
        log := s.log ++ [.sent .client ⟨s.client.cipher, p⟩] }
  | .server =>
      { s with
        client := { s.client with incoming := s.client.incoming ++ [⟨s.server.cipher, p⟩] }
        log := s.log ++ [.sent .server ⟨s.server.cipher, p⟩] }

/-- `setup_encryption`. -/
def setupEncryption (s : Connection Byte Secret Seed Digest) (e : AES256 Byte Digest) :
    End → Connection Byte Secret Seed Digest
  | .client =>
      { s with
        client := { s.client with cipher := some e }
        log := s.log ++ [.installed .client e] }
  | .server =>
      { s with
        server := { s.server with cipher := some e }
        log := s.log ++ [.installed .server e] }

/-- Carry out the effect of one statement of a call at `at_`, where `put`
stores the call's next control point. An `await_packet` on an empty inbox is
not enabled. -/
def perform {Pc : Type} (s : Connection Byte Secret Seed Digest) (at_ : End)
    (put : Connection Byte Secret Seed Digest → Option Pc → Connection Byte Secret Seed Digest) :
    Effect Byte Digest Pc → Option (Connection Byte Secret Seed Digest)
  | .go next => some (put s (some next))
  | .sendPacket p next => some (put (s.sendPacket p at_) next)
  | .setupEncryption e next => some (put (s.setupEncryption e at_) next)
  | .destroy next => some (put (s.note (.destroyed at_)) (some next))
  | .awaitPacket next =>
      match s.inbox with
      | [] => none
      | r :: rest => some (put { s with inbox := rest } (some (next r)))
  | .fail e => some (put (s.note (.failed at_ e)) none)

/-- Store or remove the `n`-th of the running calls. -/
def putCall {Pc : Type} (calls : List Pc) (n : Nat) : Option Pc → List Pc
  | some next => calls.set n next
  | none => calls.eraseIdx n

/-- Store or remove the `n`-th `process_echo` call of an end. -/
def putEcho (s : Connection Byte Secret Seed Digest) (n : Nat) (next : Option EchoPc) :
    End → Connection Byte Secret Seed Digest
  | .client => { s with client := { s.client with echoes := putCall s.client.echoes n next } }
  | .server => { s with server := { s.server with echoes := putCall s.server.echoes n next } }

/-- Hand a packet that was opened correctly to the code waiting for it. A DH
request starts a handler call, whose random values are `c`. -/
def dispatch (s : Connection Byte Secret Seed Digest) (c : ServerChoice Byte Secret Seed) :
    End → Packet Byte → Connection Byte Secret Seed Digest
  | .server, .request p => { s with handlers := s.handlers ++ [.getPublicKey ⟨p, c⟩] }
  | .server, .echo p =>
      { s with server := { s.server with echoes := s.server.echoes ++ [.answer p] } }
  | .client, .echo p =>
      { s with client := { s.client with echoes := s.client.echoes ++ [.answer p] } }
  | .client, .response p => { s with inbox := s.inbox ++ [p] }
  | .server, .response _ => s
  | .client, .request _ => s

/-- Take the head off the channel towards `at_`. -/
def dropIncoming (s : Connection Byte Secret Seed Digest) :
    End → Connection Byte Secret Seed Digest
  | .client => { s with client := { s.client with incoming := s.client.incoming.tail } }
  | .server => { s with server := { s.server with incoming := s.server.incoming.tail } }

/-- The head of the channel towards `at_` arrives. -/
def deliver [DecidableEq Byte] [DecidableEq Digest] (s : Connection Byte Secret Seed Digest)
    (at_ : End) (c : ServerChoice Byte Secret Seed) :
    Option (Connection Byte Secret Seed Digest) :=
  match (s.endpoint at_).incoming with
  | [] => none
  | m :: _ =>
      let s' := (s.dropIncoming at_).note (.arrived at_ m (s.endpoint at_).cipher)
      if m.mode = (s.endpoint at_).cipher then some (s'.dispatch c at_ m.packet) else some s'

end Connection

/-- One step: the next statement of a running call, or an arrival. -/
inductive Action (Byte Secret Seed : Type) where
  | coroutine
  | handler (n : Nat)
  | echo (at_ : End) (n : Nat)
  | arrive (at_ : End) (c : ServerChoice Byte Secret Seed)

variable [DecidableEq Byte] [DecidableEq Digest] (C : Crypto Byte Secret Seed Digest)

open Connection in
/-- The step function. -/
def Connection.step (s : Connection Byte Secret Seed Digest) :
    Action Byte Secret Seed → Option (Connection Byte Secret Seed Digest)
  | .coroutine =>
      s.coroutine.bind fun pc =>
        s.perform .client (fun s next => { s with coroutine := next }) (clientStmt C pc)
  | .handler n =>
      s.handlers[n]?.bind fun pc =>
        s.perform .server (fun s next => { s with handlers := putCall s.handlers n next })
          (serverStmt C pc)
  | .echo at_ n =>
      (s.endpoint at_).echoes[n]?.bind fun pc =>
        s.perform at_ (fun s next => s.putEcho n next at_) (echoStmt pc)
  | .arrive at_ c => s.deliver at_ c

/-- A connection whose client is about to run `setup_encryption_for_session`
with the Diffie–Hellman secret `dh`. -/
def Connection.opened (dh : Secret) : Connection Byte Secret Seed Digest where
  coroutine := some (.getPublicKey dh)
  inbox := []
  handlers := []
  client := ⟨none, [], []⟩
  server := ⟨none, [], []⟩
  log := []

/-- The machine of one connection. -/
def connection (dh : Secret) :
    Machine (Connection Byte Secret Seed Digest) (Action Byte Secret Seed) where
  init s := s = Connection.opened dh
  step := Connection.step C

/-- A connection after the handshake, under the cipher `e`: the client's
coroutine has just sent its `EchoPacket`. -/
def Connection.afterHandshake (e : AES256 Byte Digest) :
    Connection Byte Secret Seed Digest where
  coroutine := none
  inbox := []
  handlers := []
  client := ⟨some e, [], []⟩
  server := ⟨some e, [⟨some e, .echo firstEcho⟩], []⟩
  log := [.sent .client ⟨some e, .echo firstEcho⟩]

/-- The machine of one connection from there on. -/
def echoing : Machine (Connection Byte Secret Seed Digest) (Action Byte Secret Seed) where
  init s := ∃ e, s = Connection.afterHandshake e
  step := Connection.step C

/-! ## A schedule to evaluate -/

/-- The random values of the server in the schedule. -/
def exampleChoice : ServerChoice UInt8 Nat Unit :=
  .ofDraw 4 [10, 20, 30, 40, 50, 60, 70, 80] rfl 2 ()

/-- The steps of an exchange up to the client's first echo, all of them
taken before the server builds its cipher. -/
def untilFirstEcho : List (Action UInt8 Nat Unit) :=
  List.replicate 2 .coroutine ++ [.arrive .server exampleChoice] ++
    List.replicate 8 (.handler 0) ++ [.arrive .client exampleChoice] ++
    List.replicate 8 .coroutine

end PacketDistribution.Session
