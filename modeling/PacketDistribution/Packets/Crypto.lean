/-
PacketDistribution.Packets.Crypto — the key-exchange packets of
`packets/packet-crypto.hpp` and what they use of the crypto library.

The library is `mal_packet_weaver::crypto`, which is not part of the
repository: `Crypto` lists the functions the program calls. A byte string
is a list over an alphabet `Byte`, so that `ByteArray::append` is list
append; the program's own alphabet is `UInt8`, and the symbolic analysis of
`Session.Symbolic` reads the same definitions over another one.
-/
import Mathlib.Algebra.Group.Nat.Defs
import Mathlib.Data.List.Basic

namespace PacketDistribution.Packets

/-- The calls into `mal_packet_weaver::crypto`. `Secret` is what a
`DiffieHellmanHelper` keeps, `Seed` the randomness of one signature and
`Digest` a SHA-256 value. -/
structure Crypto (Byte Secret Seed Digest : Type) where
  /-- `DiffieHellmanHelper::get_public_key` -/
  getPublicKey : Secret → List Byte
  /-- `DiffieHellmanHelper::get_shared_secret`, which throws on a malformed key -/
  getSharedSecret : Secret → List Byte → Option (List Byte)
  /-- `SHA::ComputeHash(…, SHA256)` -/
  computeHash : List Byte → Digest
  /-- `ECDSA::Signer::sign_hash` under the server's private key -/
  signHash : Seed → Digest → List Byte
  /-- `ECDSA::Verifier::verify_hash` under the server's public key -/
  verifyHash : Digest → List Byte → Bool
  /-- `ByteArray::from_integral(little_to_native(static_unique_id))` -/
  uniqueId : List Byte

/-- What the program relies on: Diffie–Hellman agrees on both sides, and a
signature verifies. -/
structure Crypto.Lawful {Byte Secret Seed Digest : Type} (C : Crypto Byte Secret Seed Digest) :
    Prop where
  sharedSecret_comm : ∀ a b : Secret,
    C.getSharedSecret a (C.getPublicKey b) = C.getSharedSecret b (C.getPublicKey a)
  verify_sign : ∀ (seed : Seed) (h : Digest), C.verifyHash h (C.signHash seed h) = true

/-! ## A lawful library

Small enough to evaluate: Diffie–Hellman modulo 23, the padded input in
place of the hash, and the hash in place of its signature. -/

/-- A SHA-256 value: 32 bytes. -/
abbrev Digest256 := { b : List UInt8 // b.length = 32 }

/-- A library the examples of this development run on. -/
def smallCrypto : Crypto UInt8 Nat Unit Digest256 where
  getPublicKey a := [UInt8.ofNat (5 ^ a % 23)]
  getSharedSecret a key :=
    match key with
    | [k] => if k.toNat < 23 then some [UInt8.ofNat (k.toNat ^ a % 23)] else none
    | _ => none
  computeHash b := ⟨(b ++ List.replicate 32 0).take 32, by simp⟩
  signHash _ h := h.val
  verifyHash h signature := signature == h.val
  uniqueId := [1, 0, 0, 0]

theorem smallCrypto_lawful : smallCrypto.Lawful where
  sharedSecret_comm a b := by
    have hkey : ∀ e, (UInt8.ofNat (5 ^ e % 23)).toNat = 5 ^ e % 23 := by
      intro e
      rw [UInt8.toNat_ofNat']
      omega
    have hpow : ∀ d e : Nat, (5 ^ e % 23) ^ d % 23 = 5 ^ (e * d) % 23 := by
      intro d e
      rw [← Nat.pow_mod, ← Nat.pow_mul]
    have hlt : ∀ e, 5 ^ e % 23 < 23 := fun e => Nat.mod_lt _ (by decide)
    simp only [smallCrypto, hkey, hlt, if_true, hpow, Nat.mul_comm]
  verify_sign _ h := by
    show (h.val == h.val) = true
    rw [beq_self_eq_true]

variable {Byte Secret Seed Digest : Type}

/-! ## The packets of the exchange -/

/-- `DHKeyExchangeRequestPacket`. -/
structure DHKeyExchangeRequestPacket (Byte : Type) where
  publicKey : List Byte
  deriving DecidableEq

/-- `DHKeyExchangeResponsePacket`. -/
structure DHKeyExchangeResponsePacket (Byte : Type) where
  publicKey : List Byte
  salt : List Byte
  nRounds : Int
  signature : List Byte
  deriving DecidableEq

/-- The bytes `get_hash` feeds to SHA-256. -/
def DHKeyExchangeResponsePacket.hashInput (C : Crypto Byte Secret Seed Digest)
    (r : DHKeyExchangeResponsePacket Byte) : List Byte :=
  r.publicKey ++ r.salt ++ C.uniqueId

/-- `DHKeyExchangeResponsePacket::get_hash`. -/
def DHKeyExchangeResponsePacket.getHash (C : Crypto Byte Secret Seed Digest)
    (r : DHKeyExchangeResponsePacket Byte) : Digest :=
  C.computeHash (r.hashInput C)

/-- `verify_hash` accepts the signature for no hash but `h`. -/
def Crypto.Binds (C : Crypto Byte Secret Seed Digest) (signature : List Byte) (h : Digest) : Prop :=
  ∀ h', C.verifyHash h' signature = true → h' = h

/-- SHA-256 does not collide on the hash inputs of the two responses. -/
def Crypto.NoCollision (C : Crypto Byte Secret Seed Digest)
    (r r' : DHKeyExchangeResponsePacket Byte) : Prop :=
  r.getHash C = r'.getHash C → r.hashInput C = r'.hashInput C

/-- The arguments an `AES256` object is constructed from. -/
structure AES256 (Byte Digest : Type) where
  key : Digest
  salt : List Byte
  rounds : UInt16
  deriving DecidableEq

end PacketDistribution.Packets
