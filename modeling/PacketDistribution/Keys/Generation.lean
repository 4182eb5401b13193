/-
PacketDistribution.Keys.Generation — `main` of `keygen/main.cc` from its
command line to the writers: the key pairs are generated, and each signs and
verifies the hash of random bytes, before the first file is opened.

The library is `mal_packet_weaver::crypto`, which is not part of the
repository: `Ecdsa` lists the calls that `main` makes. `none` is an exception
of the call; `main` catches them all in one place.
-/
import PacketDistribution.Keys.Keygen

namespace PacketDistribution.Keys

open PacketDistribution.Lib

variable {Seed Digest : Type}

/-- The calls into `mal_packet_weaver::crypto`. `Seed` is the randomness of one
call and `Digest` a SHA-256 value. -/
structure Ecdsa (Seed Digest : Type) where
  /-- `ECDSA::KeyPairGenerator(curve)`, and `generate` -/
  keyPairGenerator : StdString → Option (Seed → Option KeyPair)
  /-- `ECDSA::Signer(private_key, SHA256)`, and `sign_hash` -/
  signer : List UInt8 → Option (Seed → Digest → Option (List UInt8))
  /-- `ECDSA::Verifier(public_key, SHA256)`, and `verify_hash` -/
  verifier : List UInt8 → Option (Digest → List UInt8 → Option Bool)
  /-- `SHA::ComputeHash(…, SHA256)` -/
  computeHash : List UInt8 → Option Digest

/-- What one run draws: for the `i`-th pair and its signature, and the values
of `std::rand()` in the order of the calls. -/
structure Draws (Seed : Type) where
  generate : Nat → Seed
  sign : Nat → Seed
  rand : Nat → Nat

/-- Why `main` stops before the writers. -/
inductive Stop where
  /-- an exception of the library -/
  | exception
  /-- `AlwaysAssert`, with its text -/
  | alwaysAssert (text : String)
  deriving DecidableEq

/-- The value of a call that may throw. -/
def orThrow {α : Type} : Option α → Except Stop α
  | none => .error .exception
  | some a => .ok a

/-! ## The loop over the pairs -/

/-- The 4096 `random_bytes` of pair `i`. No byte is `0xFF`. -/
def randomBytes (rand : Nat → Nat) (i : Nat) : List UInt8 :=
  (List.range 4096).map fun k => UInt8.ofNat (rand (4096 * i + k) % 0xFF)

/-- The body of the loop: a pair, tried out. -/
def generatePair (E : Ecdsa Seed Digest) (generate : Seed → Option KeyPair) (draws : Draws Seed)
    (i : Nat) : Except Stop KeyPair := do
  let pair ← orThrow (generate (draws.generate i))
  let signHash ← orThrow (E.signer pair.privateKey)
  let verifyHash ← orThrow (E.verifier pair.publicKey)
  let hash ← orThrow (E.computeHash (randomBytes draws.rand i))
  let signature ← orThrow (signHash (draws.sign i) hash)
  let result ← orThrow (verifyHash hash signature)
  if result then return pair
  else throw (.alwaysAssert "Error: keypair verification has failed.")

/-- The loop, at pair `i`, with `n` pairs to come. -/
def generateFrom (E : Ecdsa Seed Digest) (generate : Seed → Option KeyPair) (draws : Draws Seed)
    (i : Nat) (keyPairs : List KeyPair) : Nat → Except Stop (List KeyPair)
  | 0 => .ok keyPairs
  | n + 1 => do
      let pair ← generatePair E generate draws i
      generateFrom E generate draws (i + 1) (keyPairs ++ [pair]) n

/-- `key_pairs`, as `main` fills it. -/
def generateKeys (E : Ecdsa Seed Digest) (draws : Draws Seed) (curve : StdString)
    (amount : UInt32) : Except Stop (List KeyPair) := do
  let generate ← orThrow (E.keyPairGenerator curve)
  generateFrom E generate draws 0 [] amount.toNat

/-! ## `main` -/

deriving instance DecidableEq for Options

/-- The command line, once parsed. -/
structure CommandLine extends Options where
  help : Bool
  curve : Option StdString
  amount : Option UInt32

namespace CommandLine

/-- `"secp256k1"`, or the curve that was given. -/
def curveName (o : CommandLine) : StdString :=
  o.curve.getD ['s', 'e', 'c', 'p', '2', '5', '6', 'k', '1']

/-- `1`, or the amount that was given. -/
def keyAmount (o : CommandLine) : UInt32 :=
  o.amount.getD 1

end CommandLine

/-- How `main` ends. -/
inductive MainEnd where
  /-- the usage message was printed -/
  | usage
  | stopped (why : Stop)
  /-- a writer was called, and ended so -/
  | wrote (outcome : Outcome)
  deriving DecidableEq

/-- `main`, and the disk it leaves. -/
def main (E : Ecdsa Seed Digest) (nl : Newline) (o : CommandLine) (draws : Draws Seed)
    (fs : FileSystem) : MainEnd × FileSystem :=
  if o.help then (.usage, fs) else
  match generateKeys E draws o.curveName o.keyAmount with
  | .error why => (.stopped why, fs)
  | .ok pairs =>
      let report := writeKeys nl (Config.ofOptions o.toOptions) pairs fs
      (.wrote report.outcome, report.disk)

end PacketDistribution.Keys
