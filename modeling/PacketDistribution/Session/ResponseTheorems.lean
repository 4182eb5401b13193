/-
PacketDistribution.Session.ResponseTheorems — what the signature of a
response covers, and where its round count comes from.

`get_hash` feeds the public key, the salt and the packet's unique id to
SHA-256, one after the other. The lengths of the fields are not under the
hash, and neither is `n_rounds`.

* `signed_bytes_determine_concatenation`: the signed bytes fix the
  concatenation of key and salt, and with the length of either field both.
* `accepted_whatever_rounds`: a response is accepted with any round count;
  the ciphers of the two ends differ in it and in nothing else.
* `followsDraws_iff`: the bounds of the round count are swapped, so it
  follows the draw from 15 on.
-/
import PacketDistribution.Session.KeyExchange

namespace PacketDistribution.Session

open PacketDistribution.Lib
open PacketDistribution.Packets

variable {Byte Secret Seed Digest : Type} {C : Crypto Byte Secret Seed Digest}

/-! ## The signed bytes -/

/-- Equal hash inputs are equal concatenations of key and salt: the id at
their end is the same. -/
theorem hashInput_eq_iff {r r' : DHKeyExchangeResponsePacket Byte} :
    r.hashInput C = r'.hashInput C ↔ r.publicKey ++ r.salt = r'.publicKey ++ r'.salt :=
  List.append_left_inj C.uniqueId

/-- With the length of one field the concatenation fixes both fields. -/
theorem fields_eq_of_append_eq {r r' : DHKeyExchangeResponsePacket Byte}
    (h : r.publicKey ++ r.salt = r'.publicKey ++ r'.salt)
    (hlength : r.publicKey.length = r'.publicKey.length ∨ r.salt.length = r'.salt.length) :
    r.publicKey = r'.publicKey ∧ r.salt = r'.salt := by
  rcases hlength with hkey | hsalt
  · exact List.append_inj h hkey
  · exact List.append_inj' h hsalt

/-- The hash inputs of two responses are equal exactly when their keys and
salts have the same concatenation, and then, if either field has the same
length in both, the fields are equal. So a signature of the server is
accepted for another pair only when the concatenation is the same and the
salt has not the eight bytes of the server's. -/
theorem signed_bytes_determine_concatenation (C : Crypto Byte Secret Seed Digest)
    (r r' : DHKeyExchangeResponsePacket Byte) :
    (r.hashInput C = r'.hashInput C ↔ r.publicKey ++ r.salt = r'.publicKey ++ r'.salt) ∧
    (r.hashInput C = r'.hashInput C →
      r.publicKey.length = r'.publicKey.length ∨ r.salt.length = r'.salt.length →
      r.publicKey = r'.publicKey ∧ r.salt = r'.salt) ∧
    ∀ c : ServerChoice Byte Secret Seed, r = serverResponse C c → r'.signature = r.signature →
      C.Binds r.signature (r.getHash C) → C.NoCollision r' r →
      C.verifyHash (r'.getHash C) r'.signature = true →
      r'.publicKey ++ r'.salt = r.publicKey ++ r.salt ∧
        (r'.salt.length = 8 → r'.publicKey = r.publicKey ∧ r'.salt = r.salt) := by
  refine ⟨hashInput_eq_iff, fun h hlength => fields_eq_of_append_eq (hashInput_eq_iff.mp h) hlength, ?_⟩
  intro c hr hsignature hbinds hcollision haccepted
  rw [hsignature] at haccepted
  have hconcat := hashInput_eq_iff.mp (hcollision (hbinds _ haccepted))
  refine ⟨hconcat, fun hlength => fields_eq_of_append_eq hconcat (.inr ?_)⟩
  rw [hlength, hr]
  exact c.salt_length.symm

/-- The server's response in the examples below, and the same bytes cut one
byte later. -/
def honestChoice : ServerChoice UInt8 Nat Unit :=
  .ofDraw 4 [21, 22, 23, 24, 25, 26, 27, 28] rfl 3 ()

def honestResponse : DHKeyExchangeResponsePacket UInt8 :=
  serverResponse smallCrypto honestChoice

def shiftedResponse : DHKeyExchangeResponsePacket UInt8 :=
  { honestResponse with
    publicKey := honestResponse.publicKey ++ [21]
    salt := [22, 23, 24, 25, 26, 27, 28] }

/-- The client accepts the shifted response under the signature of the
honest one. -/
theorem shifted_response_accepted :
    honestResponse.hashInput smallCrypto = shiftedResponse.hashInput smallCrypto ∧
      shiftedResponse.signature = honestResponse.signature ∧
      smallCrypto.verifyHash (shiftedResponse.getHash smallCrypto) shiftedResponse.signature = true ∧
      shiftedResponse.publicKey ≠ honestResponse.publicKey ∧
      shiftedResponse.salt ≠ honestResponse.salt := by
  decide +kernel

theorem smallCrypto_binds (h : Digest256) : smallCrypto.Binds (smallCrypto.signHash () h) h := by
  intro h' hv
  exact Subtype.ext (eq_of_beq hv).symm

/-- With another round count both fields are fixed; cut elsewhere, only their
concatenation is. -/
theorem signed_bytes_determine_shifted :
    (honestResponse.publicKey = { honestResponse with nRounds := 5 }.publicKey ∧
      honestResponse.salt = { honestResponse with nRounds := 5 }.salt) ∧
    shiftedResponse.publicKey ++ shiftedResponse.salt
      = honestResponse.publicKey ++ honestResponse.salt := by
  have hbinds : smallCrypto.Binds honestResponse.signature (honestResponse.getHash smallCrypto) :=
    smallCrypto_binds _
  refine ⟨?_, ?_⟩
  · exact (signed_bytes_determine_concatenation smallCrypto honestResponse
      { honestResponse with nRounds := 5 }).2.1 rfl (.inl rfl)
  · exact ((signed_bytes_determine_concatenation smallCrypto honestResponse shiftedResponse).2.2 _ rfl
      rfl hbinds (fun _ => by decide +kernel) (by decide +kernel)).1

/-! ## The round count on the wire -/

/-- Two integers have one narrowing to 16 bits exactly when they are
congruent modulo 65536. -/
theorem ofInt_eq_iff {m n : Int} : UInt16.ofInt m = UInt16.ofInt n ↔ m % 65536 = n % 65536 := by
  unfold UInt16.ofInt
  rw [← UInt16.toNat_inj, UInt16.toNat_ofNat', UInt16.toNat_ofNat']
  omega

/-- A server's cipher has the round count of its response. -/
theorem rounds_of_serverCipher {call : ServerCall Byte Secret Seed} {e : AES256 Byte Digest}
    (h : e ∈ serverCipher C call) : e.rounds = UInt16.ofInt call.choice.nRounds := by
  obtain ⟨sharedSecret, -, rfl⟩ := Option.map_eq_some_iff.mp h
  rfl

/-- On a response to its own request that arrives with the round count `n`,
the client derives the server's cipher, with `n` for its round count. -/
theorem clientCipher_withRounds (hC : C.Lawful) (dh : Secret) (c : ServerChoice Byte Secret Seed)
    (n : Int) :
    clientCipher C dh { serverResponse C c with nRounds := n } =
      (serverCipher C ⟨⟨C.getPublicKey dh⟩, c⟩).map fun e => { e with rounds := UInt16.ofInt n } := by
  have hcomm : C.getSharedSecret dh (serverResponse C c).publicKey
      = C.getSharedSecret c.dh (C.getPublicKey dh) := hC.sharedSecret_comm dh c.dh
  simp only [clientCipher, serverCipher, hcomm, Option.map_map]
  rfl

/-- Whatever round count the network puts into a response the server made for
the client's request, `verify_hash` accepts the response, and the client
builds a cipher if the server does. The two ciphers have one key and one
salt, and they are the same exactly when the count is congruent to the
server's modulo 65536. -/
theorem accepted_whatever_rounds (hC : C.Lawful) (dh : Secret) (c : ServerChoice Byte Secret Seed)
    (r : DHKeyExchangeResponsePacket Byte) (hkey : r.publicKey = (serverResponse C c).publicKey)
    (hsalt : r.salt = (serverResponse C c).salt)
    (hsignature : r.signature = (serverResponse C c).signature) :
    C.verifyHash (r.getHash C) r.signature = true ∧
    (clientCipher C dh r).isSome = (serverCipher C ⟨⟨C.getPublicKey dh⟩, c⟩).isSome ∧
    ∀ e ∈ serverCipher C ⟨⟨C.getPublicKey dh⟩, c⟩, ∀ e' ∈ clientCipher C dh r,
      e'.key = e.key ∧ e'.salt = e.salt ∧ e'.rounds = UInt16.ofInt r.nRounds ∧
        (e' = e ↔ r.nRounds % 65536 = c.nRounds % 65536) := by
  obtain ⟨publicKey, salt, nRounds, signature⟩ := r
  obtain rfl : publicKey = _ := hkey
  obtain rfl : salt = _ := hsalt
  obtain rfl : signature = _ := hsignature
  have hcipher := clientCipher_withRounds hC dh c nRounds
  refine ⟨verifyHash_serverResponse hC c, by rw [hcipher, Option.isSome_map], fun e he e' he' => ?_⟩
  rw [hcipher] at he'
  obtain ⟨e₀, he₀, rfl⟩ := Option.map_eq_some_iff.mp he'
  obtain rfl : e₀ = e := Option.mem_unique he₀ he
  refine ⟨rfl, rfl, rfl, ?_⟩
  have hrounds := rounds_of_serverCipher he
  rw [← ofInt_eq_iff, ← hrounds]
  constructor
  · exact fun h => congrArg AES256.rounds h
  · intro h
    rw [h]

/-- The honest response of the examples with 5 for its round count. -/
def reroundedResponse : DHKeyExchangeResponsePacket UInt8 :=
  { honestResponse with nRounds := 5 }

/-- The client accepts it and builds a cipher with 5 rounds, the server one
with 20. -/
theorem rerounded_response_accepted :
    reroundedResponse.publicKey = honestResponse.publicKey ∧
      reroundedResponse.salt = honestResponse.salt ∧
      reroundedResponse.signature = honestResponse.signature ∧
      smallCrypto.verifyHash (reroundedResponse.getHash smallCrypto) reroundedResponse.signature = true ∧
      (clientCipher smallCrypto 3 reroundedResponse).map AES256.rounds = some 5 ∧
      (serverCipher smallCrypto ⟨⟨smallCrypto.getPublicKey 3⟩, honestChoice⟩).map AES256.rounds
        = some 20 := by
  decide +kernel

/-- There the two ciphers have one key, and they differ. -/
theorem accepted_whatever_rounds_five :
    ∃ e e', e ∈ serverCipher smallCrypto ⟨⟨smallCrypto.getPublicKey 3⟩, honestChoice⟩ ∧
      e' ∈ clientCipher smallCrypto 3 reroundedResponse ∧ e'.key = e.key ∧ e' ≠ e := by
  have h := accepted_whatever_rounds smallCrypto_lawful 3 honestChoice reroundedResponse rfl rfl rfl
  obtain ⟨e, he⟩ := Option.isSome_iff_exists.mp (show (serverCipher smallCrypto
    ⟨⟨smallCrypto.getPublicKey 3⟩, honestChoice⟩).isSome = true by decide)
  obtain ⟨e', he'⟩ := Option.isSome_iff_exists.mp (show (clientCipher smallCrypto 3
    reroundedResponse).isSome = true by decide)
  obtain ⟨hkey, -, -, heq⟩ := h.2.2 e he e' he'
  exact ⟨e, e', he, he', hkey, fun h' => absurd (heq.mp h') (by decide)⟩

/-! ## The round count and its draw -/

/-- The round count the code computes from the draw truncated to `k`; `none`
where `5 + k` is no `int`, which is undefined. -/
def drawnRounds (k : Nat) : Option Int :=
  if 5 + (k : Int) ≤ intMax then some (nRoundsOfDraw k) else none

/-- `5 + k` limited to the interval from 5 to 20. -/
def limitedRounds (k : Nat) : Int :=
  max 5 (min (5 + k) 20)

/-- The call with `k` for its truncated draw. -/
def ServerCall.withDraw (call : ServerCall Byte Secret Seed) (k : Nat) :
    ServerCall Byte Secret Seed :=
  { call with
    choice := .ofDraw call.choice.dh call.choice.salt call.choice.salt_length k call.choice.seed }

/-- The count is defined and is the limited one in the response, in the
server's cipher and in the cipher a client builds from the response; it is
within the bounds, and the plain sum where that is at most 20. -/
structure FollowsDraw (C : Crypto Byte Secret Seed Digest) (call : ServerCall Byte Secret Seed)
    (k : Nat) : Prop where
  drawn : drawnRounds k = some (limitedRounds k)
  response : (serverResponse C (call.withDraw k).choice).nRounds = limitedRounds k
  server : ∀ e ∈ serverCipher C (call.withDraw k), (e.rounds.toNat : Int) = limitedRounds k
  client : ∀ dh, ∀ e ∈ clientCipher C dh (serverResponse C (call.withDraw k).choice),
    (e.rounds.toNat : Int) = limitedRounds k
  bounds : 5 ≤ (serverResponse C (call.withDraw k).choice).nRounds ∧
    (serverResponse C (call.withDraw k).choice).nRounds ≤ 20
  sum : 5 + k ≤ 20 → (serverResponse C (call.withDraw k).choice).nRounds = 5 + k

/-- The bounds are applied in the wrong order: the count is 20 whatever the
draw. -/
theorem nRoundsOfDraw_eq (k : Nat) : nRoundsOfDraw k = 20 := by
  unfold nRoundsOfDraw
  omega

theorem limitedRounds_eq_iff (k : Nat) : limitedRounds k = 20 ↔ 15 ≤ k := by
  unfold limitedRounds
  omega

theorem limitedRounds_spec (k : Nat) :
    5 ≤ limitedRounds k ∧ limitedRounds k ≤ 20 ∧ (5 + k ≤ 20 → limitedRounds k = 5 + k) := by
  unfold limitedRounds
  omega

theorem drawnRounds_eq_some_iff {k : Nat} {n : Int} :
    drawnRounds k = some n ↔ k ≤ 2147483642 ∧ n = 20 := by
  unfold drawnRounds intMax
  rw [nRoundsOfDraw_eq]
  split
  · simp only [Option.some.injEq]
    omega
  · simp only [reduceCtorEq, false_iff]
    omega

/-- One draw is followed exactly from 15 on, up to the largest one whose sum
with 5 is an `int`. -/
theorem followsDraw_iff (C : Crypto Byte Secret Seed Digest) (call : ServerCall Byte Secret Seed)
    (k : Nat) : FollowsDraw C call k ↔ 15 ≤ k ∧ k ≤ 2147483642 := by
  constructor
  · intro h
    obtain ⟨hmax, hlimited⟩ := drawnRounds_eq_some_iff.mp h.drawn
    exact ⟨(limitedRounds_eq_iff k).mp hlimited, hmax⟩
  · rintro ⟨hmin, hmax⟩
    have hlimited := (limitedRounds_eq_iff k).mpr hmin
    have hresponse : (serverResponse C (call.withDraw k).choice).nRounds = limitedRounds k := by
      rw [hlimited]
      exact nRoundsOfDraw_eq k
    have hcast : ((UInt16.ofInt (serverResponse C (call.withDraw k).choice).nRounds).toNat : Int)
        = limitedRounds k := by
      rw [hresponse, hlimited]
      rfl
    obtain ⟨hlow, hhigh, hsum⟩ := limitedRounds_spec k
    refine ⟨drawnRounds_eq_some_iff.mpr ⟨hmax, hlimited⟩, hresponse, ?_, ?_, ?_, ?_⟩
    · intro e he
      rw [rounds_of_serverCipher he]
      exact hcast
    · intro dh e he
      obtain ⟨sharedSecret, -, rfl⟩ := Option.map_eq_some_iff.mp he
      exact hcast
    · exact ⟨hresponse ▸ hlow, hresponse ▸ hhigh⟩
    · exact fun h => hresponse.trans (hsum h)

/-- Two draws are followed, and told apart below 16, exactly when both are at
least 15 and at most the largest one whose sum with 5 is an `int`. -/
theorem followsDraws_iff (C : Crypto Byte Secret Seed Digest) (call : ServerCall Byte Secret Seed)
    (k k' : Nat) :
    (FollowsDraw C call k ∧ FollowsDraw C call k' ∧
      (k ≠ k' → k < 16 → k' < 16 →
        (serverResponse C (call.withDraw k).choice).nRounds ≠
          (serverResponse C (call.withDraw k').choice).nRounds)) ↔
      (15 ≤ k ∧ k ≤ 2147483642) ∧ 15 ≤ k' ∧ k' ≤ 2147483642 := by
  rw [followsDraw_iff, followsDraw_iff]
  constructor
  · exact fun h => ⟨h.1, h.2.1⟩
  · rintro ⟨hk, hk'⟩
    exact ⟨hk, hk', fun hne hlt hlt' => absurd (by omega : k = k') hne⟩

/-- For the draws 0 and 1 the response carries 20 both times. -/
theorem rounds_ignore_draw :
    let call : ServerCall UInt8 Nat Unit := ⟨⟨smallCrypto.getPublicKey 3⟩, honestChoice⟩
    (serverResponse smallCrypto (call.withDraw 0).choice).nRounds = 20 ∧
      (serverResponse smallCrypto (call.withDraw 1).choice).nRounds = 20 ∧
      ¬ FollowsDraw smallCrypto call 0 := by
  intro call
  refine ⟨by decide, by decide, fun h => ?_⟩
  exact absurd h.response (by decide)

end PacketDistribution.Session
