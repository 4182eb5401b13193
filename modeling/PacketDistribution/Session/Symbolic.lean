/-
PacketDistribution.Session.Symbolic — the key exchange on a network that
belongs to an attacker.

The statements are those of `Session.KeyExchange`, run over an alphabet in
which a Diffie–Hellman key, a shared secret, a hash and a signature of the
server are symbols: `symbolicCrypto` is a lawful `Crypto`, so nothing of the
two programs is written again. Any number of clients run the coroutine, each
with its own Diffie–Hellman key; every request that reaches the server, on
whichever session, starts a call of the handler with a fresh key.

The network keeps no packet. It keeps what the attacker has read, and every
packet that arrives is one the attacker can build from that (`Deducible`):
so packets can be dropped, reordered, replayed, changed and made up, on the
clients' connections and on the attacker's own.

Echoes travel sealed under the ciphers and are left out, as are requests and
echoes sent to a client, which no code of the exchange waits for.
-/
import Mathlib.Data.Sym.Sym2
import PacketDistribution.Lib.Attacker
import PacketDistribution.Lib.Machine
import PacketDistribution.Session.KeyExchange

namespace PacketDistribution.Session

open PacketDistribution.Lib
open PacketDistribution.Packets

/-! ## Symbols -/

/-- Whose Diffie–Hellman secret it is: that of a client session, of a call of
the server's handler, or one of the attacker's. -/
inductive Owner where
  | client (n : Nat)
  | server (n : Nat)
  | attacker (n : Nat)
  deriving DecidableEq

/-- The symbols messages are made of. -/
inductive Atom where
  | byte (b : UInt8)
  /-- the public key of a secret -/
  | pub (o : Owner)
  /-- what two secrets share, whoever computes it -/
  | shared (k : Sym2 Owner)
  | hash (input : List Atom)
  /-- the server's signature of the hash of `input` -/
  | sig (input : List Atom)

namespace Atom

mutual

/-- Equality of symbols is decidable. -/
def decEq : ∀ a b : Atom, Decidable (a = b)
  | .byte a, .byte b => decidable_of_iff (a = b) ⟨congrArg _, Atom.byte.inj⟩
  | .pub a, .pub b => decidable_of_iff (a = b) ⟨congrArg _, Atom.pub.inj⟩
  | .shared a, .shared b => decidable_of_iff (a = b) ⟨congrArg _, Atom.shared.inj⟩
  | .hash a, .hash b =>
      have := decEqList a b
      decidable_of_iff (a = b) ⟨congrArg _, Atom.hash.inj⟩
  | .sig a, .sig b =>
      have := decEqList a b
      decidable_of_iff (a = b) ⟨congrArg _, Atom.sig.inj⟩
  | .byte _, .pub _ | .byte _, .shared _ | .byte _, .hash _ | .byte _, .sig _ => .isFalse nofun
  | .pub _, .byte _ | .pub _, .shared _ | .pub _, .hash _ | .pub _, .sig _ => .isFalse nofun
  | .shared _, .byte _ | .shared _, .pub _ | .shared _, .hash _ | .shared _, .sig _ =>
      .isFalse nofun
  | .hash _, .byte _ | .hash _, .pub _ | .hash _, .shared _ | .hash _, .sig _ => .isFalse nofun
  | .sig _, .byte _ | .sig _, .pub _ | .sig _, .shared _ | .sig _, .hash _ => .isFalse nofun

/-- Equality of strings of symbols is decidable. -/
def decEqList : ∀ as bs : List Atom, Decidable (as = bs)
  | [], [] => .isTrue rfl
  | [], _ :: _ => .isFalse nofun
  | _ :: _, [] => .isFalse nofun
  | a :: as, b :: bs =>
      have := decEq a b
      have := decEqList as bs
      decidable_of_iff (a = b ∧ as = bs) ⟨fun h => by rw [h.1, h.2], List.cons.inj⟩

end

instance : DecidableEq Atom := decEq

end Atom

/-- How the crypto library reads a public key. All that is known of it is
that it reads back a key that was written. -/
structure KeyReader where
  parse : List Atom → Option Owner
  parse_pub : ∀ o, parse [.pub o] = some o

/-- The crypto library over symbols. Hashes and signatures have no inverse
and no collisions. -/
@[reducible]
def symbolicCrypto (K : KeyReader) (uniqueId : List UInt8) : Crypto Atom Owner Unit (List Atom) where
  getPublicKey o := [.pub o]
  getSharedSecret o key := (K.parse key).map fun o' => [.shared s(o, o')]
  computeHash input := input
  signHash _ input := [.sig input]
  verifyHash input signature := signature = [.sig input]
  uniqueId := uniqueId.map .byte

theorem symbolicCrypto_lawful (K : KeyReader) (uniqueId : List UInt8) :
    (symbolicCrypto K uniqueId).Lawful where
  sharedSecret_comm a b := by
    simp only [K.parse_pub, Option.map_some]
    rw [Sym2.eq_swap]
  verify_sign _ _ := decide_eq_true rfl

/-! ## The network -/

abbrev SymRequest := DHKeyExchangeRequestPacket Atom
abbrev SymResponse := DHKeyExchangeResponsePacket Atom
abbrev SymCipher := AES256 Atom (List Atom)

/-- A client session: the coroutine's control point, the response it was
given and the cipher it has installed. -/
structure ClientSession where
  pc : Option (ClientPc Atom Owner (List Atom))
  response : Option SymResponse
  installed : Option SymCipher

/-- A call of `encryption_handler_server` on a server session, its control
point and the packets it has sent. -/
structure Execution where
  session : Nat
  call : ServerCall Atom Owner Unit
  pc : Option (ServerPc Atom Owner Unit (List Atom))
  sent : List (Packet Atom)

/-- All sessions, and the messages the attacker has read. -/
structure World where
  clients : Nat → Option ClientSession
  executions : List Execution
  known : List (List Atom)

/-- What can be read off a packet on the wire. An echo is sealed. -/
def Packet.fields : Packet Atom → List (List Atom)
  | .request p => [p.publicKey]
  | .response r => [r.publicKey, r.salt, r.signature]
  | .echo _ => []

namespace World

def setClient (s : World) (n : Nat) (p : ClientSession) : World :=
  { s with clients := Function.update s.clients n (some p) }

def setExecution (s : World) (i : Nat) (x : Execution) : World :=
  { s with executions := s.executions.set i x }

/-- The attacker reads a packet. -/
def read (s : World) (p : Packet Atom) : World :=
  { s with known := s.known ++ p.fields }

/-- Carry out the effect of a statement of client `n`. An `await_packet` waits
for a delivery. -/
def performClient (s : World) (n : Nat) (p : ClientSession) :
    Effect Atom (List Atom) (ClientPc Atom Owner (List Atom)) → Option World
  | .go next => some (s.setClient n { p with pc := some next })
  | .sendPacket pk next => some ((s.setClient n { p with pc := next }).read pk)
  | .setupEncryption e next => some (s.setClient n { p with pc := next, installed := some e })
  | .destroy next => some (s.setClient n { p with pc := some next })
  | .awaitPacket _ => none
  | .fail _ => some (s.setClient n { p with pc := none })

/-- Carry out the effect of a statement of the `i`-th handler call. -/
def performServer (s : World) (i : Nat) (x : Execution) :
    Effect Atom (List Atom) (ServerPc Atom Owner Unit (List Atom)) → Option World
  | .go next => some (s.setExecution i { x with pc := some next })
  | .sendPacket pk next =>
      some ((s.setExecution i { x with pc := next, sent := x.sent ++ [pk] }).read pk)
  | .setupEncryption _ next => some (s.setExecution i { x with pc := next })
  | .destroy next => some (s.setExecution i { x with pc := some next })
  | .awaitPacket _ => none
  | .fail _ => some (s.setExecution i { x with pc := none })

end World

/-- One step of the world. -/
inductive Move where
  /-- a client starts its coroutine -/
  | start (n : Nat)
  /-- the next statement of a client -/
  | client (n : Nat)
  /-- a response arrives at a client that awaits one -/
  | deliver (n : Nat) (r : SymResponse)
  /-- a request arrives on a server session; the call draws its salt and its
  round count -/
  | request (session : Nat) (p : SymRequest) (salt : { b : List UInt8 // b.length = 8 })
      (nRounds : Int)
  /-- the next statement of a handler call -/
  | server (i : Nat)

/-- The `i`-th handler call, with its own Diffie–Hellman key. -/
def freshCall (i : Nat) (p : SymRequest) (salt : { b : List UInt8 // b.length = 8 })
    (nRounds : Int) : ServerCall Atom Owner Unit where
  request := p
  choice :=
    { dh := .server i
      salt := salt.val.map .byte
      salt_length := by rw [List.length_map, salt.property]
      nRounds := nRounds
      seed := () }

variable (K : KeyReader) (uniqueId : List UInt8)

open World in
/-- The step function. -/
def World.step (s : World) : Move → Option World
  | .start n =>
      match s.clients n with
      | none => some (s.setClient n ⟨some (.getPublicKey (.client n)), none, none⟩)
      | some _ => none
  | .client n =>
      (s.clients n).bind fun p => p.pc.bind fun pc =>
        s.performClient n p (clientStmt (symbolicCrypto K uniqueId) pc)
  | .deliver n r =>
      (s.clients n).bind fun p => p.pc.bind fun pc =>
        match clientStmt (symbolicCrypto K uniqueId) pc with
        | .awaitPacket next =>
            some (s.setClient n { p with pc := some (next r), response := some r })
        | _ => none
  | .request session p salt nRounds =>
      let call := freshCall s.executions.length p salt nRounds
      some { s with
        executions := s.executions ++ [⟨session, call, some (.getPublicKey call), []⟩] }
  | .server i =>
      s.executions[i]?.bind fun x => x.pc.bind fun pc =>
        s.performServer i x (serverStmt (symbolicCrypto K uniqueId) pc)

/-- All sessions together; at first the attacker has read nothing. -/
def network : Machine World Move where
  init s := s = ⟨fun _ => none, [], []⟩
  step := World.step K uniqueId

/-! ## The attacker -/

/-- What anyone can compute: bytes, hashes, and with a secret of one's own its
public key and what it shares with a key one has. -/
inductive PublicOp : List Atom → List Atom → Prop where
  | byte (b : UInt8) : PublicOp [] [.byte b]
  | hash (input : List Atom) : PublicOp input [.hash input]
  | publicKey (n : Nat) : PublicOp [] [.pub (.attacker n)]
  | sharedSecret {key : List Atom} {o : Owner} (n : Nat) :
      K.parse key = some o → PublicOp key [.shared s(.attacker n, o)]

/-- Every packet that arrives is one the attacker can build. Its round count
is any number. -/
def Deducible (s : World) : Move → Prop
  | .deliver _ r =>
      Derives (PublicOp K) s.known r.publicKey ∧ Derives (PublicOp K) s.known r.salt ∧
        Derives (PublicOp K) s.known r.signature
  | .request _ p _ _ => Derives (PublicOp K) s.known p.publicKey
  | _ => True

/-- Every packet that arrives has been read as it is, or is a request with a
key of the attacker's: a check that can be evaluated. -/
def Forwarded (s : World) : Move → Prop
  | .deliver _ r => r.publicKey ∈ s.known ∧ r.salt ∈ s.known ∧ r.signature ∈ s.known
  | .request _ p _ _ => p.publicKey ∈ s.known ∨ p.publicKey = [.pub (.attacker 0)]
  | _ => True

instance Forwarded.decidable (s : World) : ∀ act, Decidable (Forwarded s act)
  | .deliver _ r =>
      inferInstanceAs (Decidable (r.publicKey ∈ s.known ∧ r.salt ∈ s.known ∧ r.signature ∈ s.known))
  | .request _ p _ _ =>
      inferInstanceAs (Decidable (p.publicKey ∈ s.known ∨ p.publicKey = [.pub (.attacker 0)]))
  | .start _ => .isTrue trivial
  | .client _ => .isTrue trivial
  | .server _ => .isTrue trivial

/-- What is only forwarded can be built. -/
theorem Forwarded.deducible {s : World} {act : Move} (h : Forwarded s act) :
    Deducible K s act := by
  cases act with
  | deliver n r => exact ⟨.known h.1, .known h.2.1, .known h.2.2⟩
  | request session p salt nRounds =>
      rcases h with h | h
      · exact .known h
      · show Derives (PublicOp K) s.known p.publicKey
        rw [h]
        exact .apply (.publicKey 0) .nil
  | start n => trivial
  | client n => trivial
  | server i => trivial

end PacketDistribution.Session
