/-
PacketDistribution.Session.KeyExchange — the statements of
`encryption_handler_server` (`central_server/main.cpp`) and of the coroutine
`setup_encryption_for_session` (`client_test/main.cpp`), one step each, and
what the two compute as a whole.

`ServerPc` and `ClientPc` are the control points; each is named after the
statement that runs next and carries the locals in scope. A statement has
one `Effect`. Two layers sit on top of the statements:

* `serverResponse`, `serverCipher` and `clientCipher` are the values the two
  programs compute, written from the source as expressions;
* `ServerPc.outcome` and `ClientPc.outcome` say what the rest of a call will
  send and install, and `serverStmt_outcome` / `clientStmt_outcome` prove
  that no statement changes it.

The logging statements and the default constructions of locals have no
effect and no control point. `n_rounds` is computed by three statements on a
packet that has not left the call; they are one control point.
-/
import PacketDistribution.Packets.Crypto
import PacketDistribution.Packets.Network

namespace PacketDistribution.Session

open PacketDistribution.Packets

variable {Byte Secret Seed Digest : Type}

/-- A packet of the exchange. -/
inductive Packet (Byte : Type) where
  | request (p : DHKeyExchangeRequestPacket Byte)
  | response (p : DHKeyExchangeResponsePacket Byte)
  | echo (p : EchoPacket)
  deriving DecidableEq

/-- The packet is an `EchoPacket`, not a part of the key exchange. -/
def Packet.isEcho : Packet Byte → Bool
  | .echo _ => true
  | _ => false

/-- Why a call ended before its last statement. -/
inductive Failure where
  | badPublicKey
  | echo (e : EchoFailure)
  deriving DecidableEq

/-- What one statement of a call does. `next` is the control point after
it, `none` when the call returns. -/
inductive Effect (Byte Digest Pc : Type) where
  /-- only locals change -/
  | go (next : Pc)
  | sendPacket (p : Packet Byte) (next : Option Pc)
  | setupEncryption (e : AES256 Byte Digest) (next : Option Pc)
  | destroy (next : Pc)
  /-- `co_await await_packet<DHKeyExchangeResponsePacket>()` -/
  | awaitPacket (next : DHKeyExchangeResponsePacket Byte → Pc)
  /-- the statement throws, or is undefined -/
  | fail (e : Failure)

/-! ## The server -/

/-- The random values of one call of `encryption_handler_server`: the
Diffie–Hellman secret, the eight salt bytes, the round count and the
signature's randomness. -/
structure ServerChoice (Byte Secret Seed : Type) where
  dh : Secret
  salt : List Byte
  salt_length : salt.length = 8
  nRounds : Int
  seed : Seed

/-- `n_rounds` as the code computes it from the truncated chi-squared draw:
`5 + draw`, then `std::min(n_rounds, 5)`, then `std::max(n_rounds, 20)`. -/
def nRoundsOfDraw (draw : Int) : Int :=
  max (min (5 + draw) 5) 20

/-- The choice the code makes. The results below hold of every choice. -/
def ServerChoice.ofDraw (dh : Secret) (salt : List Byte) (hsalt : salt.length = 8)
    (draw : Int) (seed : Seed) : ServerChoice Byte Secret Seed :=
  ⟨dh, salt, hsalt, nRoundsOfDraw draw, seed⟩

/-- One call of `encryption_handler_server`. -/
structure ServerCall (Byte Secret Seed : Type) where
  request : DHKeyExchangeRequestPacket Byte
  choice : ServerChoice Byte Secret Seed

/-- The control points of `encryption_handler_server`. -/
inductive ServerPc (Byte Secret Seed Digest : Type) where
  | getPublicKey (call : ServerCall Byte Secret Seed)
  | fillSalt (call : ServerCall Byte Secret Seed) (r : DHKeyExchangeResponsePacket Byte)
  | drawRounds (call : ServerCall Byte Secret Seed) (r : DHKeyExchangeResponsePacket Byte)
  | signHash (call : ServerCall Byte Secret Seed) (r : DHKeyExchangeResponsePacket Byte)
  | getSharedSecret (call : ServerCall Byte Secret Seed) (r : DHKeyExchangeResponsePacket Byte)
  | appendSalt (r : DHKeyExchangeResponsePacket Byte) (sharedSecret : List Byte)
  | computeHash (r : DHKeyExchangeResponsePacket Byte) (sharedSecret : List Byte)
  | sendPacket (r : DHKeyExchangeResponsePacket Byte) (sharedKey : Digest)
  | makeCipher (r : DHKeyExchangeResponsePacket Byte) (sharedKey : Digest)
  | setupEncryption (encryption : AES256 Byte Digest)

/-- `make_shared<AES256>(shared_key.hash_value, salt, static_cast<uint16_t>(n_rounds))`,
the same expression in both programs. -/
def makeCipher (r : DHKeyExchangeResponsePacket Byte) (sharedKey : Digest) :
    AES256 Byte Digest :=
  ⟨sharedKey, r.salt, UInt16.ofInt r.nRounds⟩

variable (C : Crypto Byte Secret Seed Digest)

/-- The statement at a control point of `encryption_handler_server`. -/
def serverStmt : ServerPc Byte Secret Seed Digest →
    Effect Byte Digest (ServerPc Byte Secret Seed Digest)
  | .getPublicKey call =>
      .go (.fillSalt call ⟨C.getPublicKey call.choice.dh, [], 0, []⟩)
  | .fillSalt call r => .go (.drawRounds call { r with salt := call.choice.salt })
  | .drawRounds call r => .go (.signHash call { r with nRounds := call.choice.nRounds })
  | .signHash call r =>
      .go (.getSharedSecret call { r with signature := C.signHash call.choice.seed (r.getHash C) })
  | .getSharedSecret call r =>
      match C.getSharedSecret call.choice.dh call.request.publicKey with
      | none => .fail .badPublicKey
      | some sharedSecret => .go (.appendSalt r sharedSecret)
  | .appendSalt r sharedSecret => .go (.computeHash r (sharedSecret ++ r.salt))
  | .computeHash r sharedSecret => .go (.sendPacket r (C.computeHash sharedSecret))
  | .sendPacket r sharedKey => .sendPacket (.response r) (some (.makeCipher r sharedKey))
  | .makeCipher r sharedKey => .go (.setupEncryption (Session.makeCipher r sharedKey))
  | .setupEncryption encryption => .setupEncryption encryption none

/-- The response packet as it is before `sign_hash`. -/
def unsignedResponse (c : ServerChoice Byte Secret Seed) : DHKeyExchangeResponsePacket Byte :=
  ⟨C.getPublicKey c.dh, c.salt, c.nRounds, []⟩

/-- The response packet a call sends. -/
def serverResponse (c : ServerChoice Byte Secret Seed) : DHKeyExchangeResponsePacket Byte :=
  { unsignedResponse C c with
    signature := C.signHash c.seed ((unsignedResponse C c).getHash C) }

/-- The cipher a call installs, if it does not throw. -/
def serverCipher (call : ServerCall Byte Secret Seed) : Option (AES256 Byte Digest) :=
  (C.getSharedSecret call.choice.dh call.request.publicKey).map fun sharedSecret =>
    makeCipher (serverResponse C call.choice)
      (C.computeHash (sharedSecret ++ (serverResponse C call.choice).salt))

/-- The handler has called `send_packet`. -/
def ServerPc.sent : ServerPc Byte Secret Seed Digest → Bool
  | .makeCipher _ _ => true
  | .setupEncryption _ => true
  | _ => false

/-- What the rest of a call that has not sent yet will send and install,
`none` if it throws instead; of a call that has sent, what it will install. -/
def ServerPc.outcome : ServerPc Byte Secret Seed Digest →
    Option (Option (DHKeyExchangeResponsePacket Byte) × AES256 Byte Digest)
  | .getPublicKey call =>
      (serverCipher C call).map fun e => (some (serverResponse C call.choice), e)
  | .fillSalt call r => signed call { r with salt := call.choice.salt, nRounds := call.choice.nRounds }
  | .drawRounds call r => signed call { r with nRounds := call.choice.nRounds }
  | .signHash call r => signed call r
  | .getSharedSecret call r => derived call r
  | .appendSalt r sharedSecret =>
      some (some r, Session.makeCipher r (C.computeHash (sharedSecret ++ r.salt)))
  | .computeHash r sharedSecret => some (some r, Session.makeCipher r (C.computeHash sharedSecret))
  | .sendPacket r sharedKey => some (some r, Session.makeCipher r sharedKey)
  | .makeCipher r sharedKey => some (none, Session.makeCipher r sharedKey)
  | .setupEncryption e => some (none, e)
where
  /-- the outcome at `get_shared_secret` -/
  derived (call : ServerCall Byte Secret Seed) (r : DHKeyExchangeResponsePacket Byte) :
      Option (Option (DHKeyExchangeResponsePacket Byte) × AES256 Byte Digest) :=
    (C.getSharedSecret call.choice.dh call.request.publicKey).map fun sharedSecret =>
      (some r, Session.makeCipher r (C.computeHash (sharedSecret ++ r.salt)))
  /-- the outcome at `sign_hash` -/
  signed (call : ServerCall Byte Secret Seed) (r : DHKeyExchangeResponsePacket Byte) :
      Option (Option (DHKeyExchangeResponsePacket Byte) × AES256 Byte Digest) :=
    derived call { r with signature := C.signHash call.choice.seed (r.getHash C) }

/-! ## The client -/

/-- The control points of `setup_encryption_for_session`. -/
inductive ClientPc (Byte Secret Digest : Type) where
  | getPublicKey (dh : Secret)
  | sendRequest (dh : Secret) (p : DHKeyExchangeRequestPacket Byte)
  | awaitResponse (dh : Secret)
  | verifyHash (dh : Secret) (r : DHKeyExchangeResponsePacket Byte)
  | getSharedSecret (dh : Secret) (r : DHKeyExchangeResponsePacket Byte)
  | appendSalt (r : DHKeyExchangeResponsePacket Byte) (sharedSecret : List Byte)
  | computeHash (r : DHKeyExchangeResponsePacket Byte) (sharedSecret : List Byte)
  | makeCipher (r : DHKeyExchangeResponsePacket Byte) (sharedKey : Digest)
  | setupEncryption (encryption : AES256 Byte Digest)
  | sendEcho

/-- The text of the first `EchoPacket`. -/
def firstEcho : EchoPacket := ⟨['0']⟩

/-- The statement at a control point of `setup_encryption_for_session`.
`Destroy()` on a bad signature is followed by the next statement: the branch
has no `co_return`. -/
def clientStmt : ClientPc Byte Secret Digest → Effect Byte Digest (ClientPc Byte Secret Digest)
  | .getPublicKey dh => .go (.sendRequest dh ⟨C.getPublicKey dh⟩)
  | .sendRequest dh p => .sendPacket (.request p) (some (.awaitResponse dh))
  | .awaitResponse dh => .awaitPacket fun r => .verifyHash dh r
  | .verifyHash dh r =>
      if C.verifyHash (r.getHash C) r.signature then .go (.getSharedSecret dh r)
      else .destroy (.getSharedSecret dh r)
  | .getSharedSecret dh r =>
      match C.getSharedSecret dh r.publicKey with
      | none => .fail .badPublicKey
      | some sharedSecret => .go (.appendSalt r sharedSecret)
  | .appendSalt r sharedSecret => .go (.computeHash r (sharedSecret ++ r.salt))
  | .computeHash r sharedSecret => .go (.makeCipher r (C.computeHash sharedSecret))
  | .makeCipher r sharedKey => .go (.setupEncryption (Session.makeCipher r sharedKey))
  | .setupEncryption encryption => .setupEncryption encryption (some .sendEcho)
  | .sendEcho => .sendPacket (.echo firstEcho) none

/-- The cipher the client installs for a response, if it does not throw. -/
def clientCipher (dh : Secret) (r : DHKeyExchangeResponsePacket Byte) :
    Option (AES256 Byte Digest) :=
  (C.getSharedSecret dh r.publicKey).map fun sharedSecret =>
    makeCipher r (C.computeHash (sharedSecret ++ r.salt))

/-- The coroutine has its response and has not installed a cipher. -/
def ClientPc.received : ClientPc Byte Secret Digest → Bool
  | .getPublicKey _ => false
  | .sendRequest _ _ => false
  | .awaitResponse _ => false
  | .sendEcho => false
  | _ => true

/-- What the rest of the coroutine will install, once it has a response;
`none` if it throws instead. -/
def ClientPc.outcome : ClientPc Byte Secret Digest → Option (AES256 Byte Digest)
  | .verifyHash dh r => clientCipher C dh r
  | .getSharedSecret dh r => clientCipher C dh r
  | .appendSalt r sharedSecret =>
      some (Session.makeCipher r (C.computeHash (sharedSecret ++ r.salt)))
  | .computeHash r sharedSecret => some (Session.makeCipher r (C.computeHash sharedSecret))
  | .makeCipher r sharedKey => some (Session.makeCipher r sharedKey)
  | .setupEncryption e => some e
  | _ => none

/-! ## `process_echo` -/

/-- The control points of `process_echo`, at either end. -/
inductive EchoPc where
  | answer (echo : EchoPacket)
  | sendPacket (response : EchoPacket)
  deriving DecidableEq

/-- The statement at a control point of `process_echo`. -/
def echoStmt : EchoPc → Effect Byte Digest EchoPc
  | .answer echo =>
      match processEcho echo with
      | .error e => .fail (.echo e)
      | .ok response => .go (.sendPacket response)
  | .sendPacket response => .sendPacket (.echo response) none

/-! ## Statements keep the outcome -/

/-- Before the packet is sent, a statement of the handler either keeps the
outcome, or sends the predicted response, or throws where a throw was
predicted. -/
theorem serverStmt_outcome {pc : ServerPc Byte Secret Seed Digest} (h : pc.sent = false) :
    (∃ next, serverStmt C pc = .go next ∧ next.sent = false ∧ next.outcome C = pc.outcome C) ∨
    (∃ r e next, serverStmt C pc = .sendPacket (.response r) (some next) ∧ next.sent = true ∧
      pc.outcome C = some (some r, e) ∧ next.outcome C = some (none, e)) ∨
    (serverStmt C pc = .fail .badPublicKey ∧ pc.outcome C = none) := by
  cases pc with
  | getPublicKey call => exact .inl ⟨_, rfl, rfl, by
      simp [ServerPc.outcome, ServerPc.outcome.signed, ServerPc.outcome.derived, serverCipher,
        serverResponse, unsignedResponse, Function.comp_def]⟩
  | fillSalt call r => exact .inl ⟨_, rfl, rfl, rfl⟩
  | drawRounds call r => exact .inl ⟨_, rfl, rfl, rfl⟩
  | signHash call r => exact .inl ⟨_, rfl, rfl, rfl⟩
  | getSharedSecret call r =>
      cases hs : C.getSharedSecret call.choice.dh call.request.publicKey with
      | none => exact .inr (.inr ⟨by simp [serverStmt, hs], by
          simp [ServerPc.outcome, ServerPc.outcome.derived, hs]⟩)
      | some sharedSecret => exact .inl ⟨.appendSalt r sharedSecret, by simp [serverStmt, hs], rfl, by
          simp [ServerPc.outcome, ServerPc.outcome.derived, hs]⟩
  | appendSalt r sharedSecret => exact .inl ⟨_, rfl, rfl, rfl⟩
  | computeHash r sharedSecret => exact .inl ⟨_, rfl, rfl, rfl⟩
  | sendPacket r sharedKey => exact .inr (.inl ⟨_, _, _, rfl, rfl, rfl, rfl⟩)
  | makeCipher r sharedKey => cases h
  | setupEncryption e => cases h

/-- After the packet is sent, a statement either keeps the outcome or
installs the predicted cipher and returns. -/
theorem serverStmt_outcome_sent {pc : ServerPc Byte Secret Seed Digest}
    {e : AES256 Byte Digest} (h : pc.sent = true) (ho : pc.outcome C = some (none, e)) :
    (∃ next, serverStmt C pc = .go next ∧ next.sent = true ∧
      next.outcome C = some (none, e)) ∨
    serverStmt C pc = .setupEncryption e none := by
  cases pc with
  | makeCipher r sharedKey => exact .inl ⟨_, rfl, rfl, ho⟩
  | setupEncryption e' =>
      obtain ⟨-, rfl⟩ := Prod.mk.inj (Option.some.inj ho)
      exact .inr rfl
  | _ => cases h

/-- Once the coroutine holds a response, a statement keeps the outcome (on a
bad signature too, after `Destroy`), or installs the predicted cipher, or
throws where a throw was predicted. -/
theorem clientStmt_outcome {pc : ClientPc Byte Secret Digest} (h : pc.received = true) :
    (∃ next, (clientStmt C pc = .go next ∨ clientStmt C pc = .destroy next) ∧
      next.received = true ∧ next.outcome C = pc.outcome C) ∨
    (∃ e, clientStmt C pc = .setupEncryption e (some .sendEcho) ∧ pc.outcome C = some e) ∨
    (clientStmt C pc = .fail .badPublicKey ∧ pc.outcome C = none) := by
  cases pc with
  | getPublicKey dh => cases h
  | sendRequest dh p => cases h
  | awaitResponse dh => cases h
  | sendEcho => cases h
  | verifyHash dh r =>
      refine .inl ⟨.getSharedSecret dh r, ?_, rfl, rfl⟩
      cases hv : C.verifyHash (r.getHash C) r.signature with
      | true => exact .inl (by simp [clientStmt, hv])
      | false => exact .inr (by simp [clientStmt, hv])
  | getSharedSecret dh r =>
      cases hs : C.getSharedSecret dh r.publicKey with
      | none => exact .inr (.inr ⟨by simp [clientStmt, hs], by
          simp [ClientPc.outcome, clientCipher, hs]⟩)
      | some sharedSecret =>
          exact .inl ⟨.appendSalt r sharedSecret, .inl (by simp [clientStmt, hs]), rfl, by
            simp [ClientPc.outcome, clientCipher, hs]⟩
  | appendSalt r sharedSecret => exact .inl ⟨_, .inl rfl, rfl, rfl⟩
  | computeHash r sharedSecret => exact .inl ⟨_, .inl rfl, rfl, rfl⟩
  | makeCipher r sharedKey => exact .inl ⟨_, .inl rfl, rfl, rfl⟩
  | setupEncryption e => exact .inr (.inl ⟨e, rfl, rfl⟩)

/-! ## Agreement of the two derivations -/

/-- The signature does not enter the hash, so a response's hash is the one
that was signed. -/
theorem serverResponse_getHash (c : ServerChoice Byte Secret Seed) :
    (serverResponse C c).getHash C = (unsignedResponse C c).getHash C :=
  rfl

variable {C}

/-- Every response the server makes passes `verify_hash`. -/
theorem verifyHash_serverResponse (hC : C.Lawful) (c : ServerChoice Byte Secret Seed) :
    C.verifyHash ((serverResponse C c).getHash C) (serverResponse C c).signature = true := by
  rw [serverResponse_getHash]
  exact hC.verify_sign c.seed _

/-- On the client's own request, the two derivations give one cipher. -/
theorem clientCipher_serverResponse (hC : C.Lawful) (dh : Secret)
    (c : ServerChoice Byte Secret Seed) :
    clientCipher C dh (serverResponse C c) = serverCipher C ⟨⟨C.getPublicKey dh⟩, c⟩ := by
  have hcomm : C.getSharedSecret dh (serverResponse C c).publicKey
      = C.getSharedSecret c.dh (C.getPublicKey dh) := hC.sharedSecret_comm dh c.dh
  rw [clientCipher, serverCipher, hcomm]

end PacketDistribution.Session
